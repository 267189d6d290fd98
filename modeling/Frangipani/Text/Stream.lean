/-
Formatted input from a text, as C++ input streams do it.

A stream is the text that is left and the two state bits `eof` and `fail`.  Each
extraction first checks the state: on a stream that is not good it sets `fail` and
leaves its target alone.  Words and numbers skip white space before they start,
and fail when nothing is left after it.  A number that does not fit sets `fail`
and yields the largest value.

The lemmas say what each extraction does on a good stream whose text starts with
what a writer has put there.
-/
import Mathlib.Data.Nat.Digits.Defs

namespace Frangipani
namespace Text

/-- `isspace` in the C locale. -/
def isSpace (c : Char) : Bool :=
  c == ' ' || c == '\t' || c == '\n' || c == '\x0b' || c == '\x0c' || c == '\r'

theorem noSpace_of_all {cs : List Char} (h : cs.all (fun c => !isSpace c) = true) :
    ∀ c ∈ cs, isSpace c = false := by
  intro c hc
  exact (Bool.not_eq_true' _).mp (List.all_eq_true.mp h c hc)

/-- A text that is read back as one word. -/
def IsWord (s : String) : Prop := s.toList ≠ [] ∧ s.toList.all (fun c => !isSpace c) = true

instance (s : String) : Decidable (IsWord s) := inferInstanceAs (Decidable (_ ∧ _))

theorem IsWord.noSpace {s : String} (h : IsWord s) : ∀ c ∈ s.toList, isSpace c = false :=
  noSpace_of_all h.2

/-! ## Bytes and characters -/

/-- Bytes as characters, one for each. -/
def text (bs : List UInt8) : List Char := bs.map fun b => Char.ofNat b.toNat

def bytes (cs : List Char) : List UInt8 := cs.map fun ch => UInt8.ofNat ch.toNat

theorem toNat_ofNat_byte (b : UInt8) : (Char.ofNat b.toNat).toNat = b.toNat := by
  have hvalid : b.toNat.isValidChar := .inl (by have := b.toNat_lt; omega)
  rw [Char.ofNat, dif_pos hvalid]
  rfl

theorem text_lt (bs : List UInt8) : ∀ ch ∈ text bs, ch.toNat < UInt8.size := by
  intro ch hch
  obtain ⟨b, -, rfl⟩ := List.mem_map.mp hch
  rw [toNat_ofNat_byte]
  exact b.toNat_lt

theorem text_bytes {cs : List Char} (h : ∀ ch ∈ cs, ch.toNat < UInt8.size) :
    text (bytes cs) = cs := by
  rw [text, bytes, List.map_map]
  refine (List.map_congr_left fun ch hch => ?_).trans (List.map_id cs)
  show Char.ofNat (UInt8.ofNat ch.toNat).toNat = ch
  rw [UInt8.toNat_ofNat_of_lt' (h ch hch), Char.ofNat_toNat]

theorem text_bytes_filter {α : Type*} {f : α → List Char} {bs : List UInt8} {xs : List α}
    (h : text bs = xs.flatMap f) (p : α → Bool) :
    text (bytes ((xs.filter p).flatMap f)) = (xs.filter p).flatMap f := by
  refine text_bytes fun ch hch => text_lt bs ch ?_
  rw [h]
  obtain ⟨x, hx, hch⟩ := List.mem_flatMap.mp hch
  exact List.mem_flatMap.mpr ⟨x, (List.mem_filter.mp hx).1, hch⟩

/-! ## Streams -/

structure IStream where
  rest : List Char
  eof : Bool
  fail : Bool
  deriving DecidableEq, Repr

/-- The decimal numeral that an output stream writes. -/
def decimal (n : UInt32) : List Char := Nat.toDigits 10 n.toNat

def decimal64 (n : UInt64) : List Char := Nat.toDigits 10 n.toNat

namespace IStream

def ofChars (cs : List Char) : IStream := { rest := cs, eof := false, fail := false }

@[simp] theorem ofChars_fail (cs : List Char) : (ofChars cs).fail = false := rfl

def good (s : IStream) : Bool := !s.eof && !s.fail

/-- What happens before a formatted extraction. -/
def skipSpace (s : IStream) : IStream :=
  if s.good then
    match s.rest.dropWhile isSpace with
    | [] => { rest := [], eof := true, fail := true }
    | c :: cs => { s with rest := c :: cs }
  else { s with fail := true }

/-- `s >> word`. -/
def getWord (old : String) (s : IStream) : String × IStream :=
  let s := s.skipSpace
  if s.fail then (old, s)
  else
    let rest := s.rest.dropWhile fun c => !isSpace c
    (String.ofList (s.rest.takeWhile fun c => !isSpace c),
      { s with rest := rest, eof := rest.isEmpty })

/-- `s >> n` for an unsigned `n`. -/
def getUnsigned (old : UInt32) (s : IStream) : UInt32 × IStream :=
  let s := s.skipSpace
  if s.fail then (old, s)
  else
    let negative := s.rest.head? == some '-'
    let body := if negative || s.rest.head? == some '+' then s.rest.tail else s.rest
    let digits := body.takeWhile Char.isDigit
    let rest := body.dropWhile Char.isDigit
    let n := Nat.ofDigitChars 10 digits 0
    let s := { s with rest := rest, eof := rest.isEmpty }
    if digits.isEmpty then (0, { s with fail := true })
    else if n < 2 ^ 32 then (if negative then 0 - UInt32.ofNat n else UInt32.ofNat n, s)
    else (UInt32.ofNat (2 ^ 32 - 1), { s with fail := true })

/-- `s >> n` for an unsigned long long `n`. -/
def getULongLong (old : UInt64) (s : IStream) : UInt64 × IStream :=
  let s := s.skipSpace
  if s.fail then (old, s)
  else
    let negative := s.rest.head? == some '-'
    let body := if negative || s.rest.head? == some '+' then s.rest.tail else s.rest
    let digits := body.takeWhile Char.isDigit
    let rest := body.dropWhile Char.isDigit
    let n := Nat.ofDigitChars 10 digits 0
    let s := { s with rest := rest, eof := rest.isEmpty }
    if digits.isEmpty then (0, { s with fail := true })
    else if n < 2 ^ 64 then (if negative then 0 - UInt64.ofNat n else UInt64.ofNat n, s)
    else (UInt64.ofNat (2 ^ 64 - 1), { s with fail := true })

/-- `s.get()`. -/
def getChar (s : IStream) : IStream :=
  if s.good then
    match s.rest with
    | [] => { s with eof := true, fail := true }
    | _ :: cs => { s with rest := cs }
  else { s with fail := true }

/-- `getline(s, line)`. -/
def getLine (old : String) (s : IStream) : String × IStream :=
  if s.good then
    let line := s.rest.takeWhile (· != '\n')
    match s.rest.dropWhile (· != '\n') with
    | [] => (String.ofList line, { rest := [], eof := true, fail := line.isEmpty })
    | _ :: cs => (String.ofList line, { s with rest := cs })
  else (old, { s with fail := true })

/-! ## Reading back what was written -/

/-- A run of characters that satisfy `p` ends at the first that does not. -/
theorem span_of_all (p : Char → Bool) (xs : List Char) (c : Char) (ys : List Char)
    (h : ∀ x ∈ xs, p x = true) (hc : p c = false) :
    (xs ++ c :: ys).takeWhile p = xs ∧ (xs ++ c :: ys).dropWhile p = c :: ys := by
  constructor
  · rw [List.takeWhile_append_of_pos h, List.takeWhile_cons_of_neg (by simp [hc])]
    simp
  · rw [List.dropWhile_append_of_pos h, List.dropWhile_cons_of_neg (by simp [hc])]

theorem skipSpace_ofChars {blanks text : List Char} {c : Char} (h : ∀ b ∈ blanks, isSpace b = true)
    (hc : isSpace c = false) :
    (ofChars (blanks ++ c :: text)).skipSpace = ofChars (c :: text) := by
  have hdrop : (blanks ++ c :: text).dropWhile isSpace = c :: text :=
    (span_of_all isSpace blanks c text h hc).2
  simp only [skipSpace, ofChars, good, Bool.not_false, Bool.and_self, if_true, hdrop]

theorem skipSpace_blank {blanks : List Char} (h : ∀ b ∈ blanks, isSpace b = true) :
    (ofChars blanks).skipSpace.fail = true := by
  have hdrop : blanks.dropWhile isSpace = [] := by
    have happend : (blanks ++ []).dropWhile isSpace = List.dropWhile isSpace [] :=
      List.dropWhile_append_of_pos h
    rwa [List.append_nil] at happend
  simp only [skipSpace, ofChars, good, Bool.not_false, Bool.and_self, if_true, hdrop]

/-- When only white space is left a word is not there to be read. -/
theorem getWord_blank (old : String) (blanks : List Char) (h : ∀ b ∈ blanks, isSpace b = true) :
    ((ofChars blanks).getWord old).2.fail = true := by
  simp only [getWord, skipSpace_blank h, if_true]

theorem getWord_of_fail (old : String) {s : IStream} (h : s.fail = true) :
    (s.getWord old).2.fail = true := by
  simp only [getWord, skipSpace, good, h, Bool.not_true, Bool.and_false, Bool.false_eq_true,
    if_false, if_true]

theorem getWord_ofChars (old : String) (blanks word : List Char) (sep : Char) (text : List Char)
    (hblanks : ∀ b ∈ blanks, isSpace b = true) (hne : word ≠ [])
    (hword : ∀ c ∈ word, isSpace c = false) (hsep : isSpace sep = true) :
    (ofChars (blanks ++ word ++ sep :: text)).getWord old =
      (String.ofList word, ofChars (sep :: text)) := by
  obtain ⟨c, cs, rfl⟩ := List.exists_cons_of_ne_nil hne
  have hskip : (ofChars (blanks ++ (c :: cs) ++ sep :: text)).skipSpace =
      ofChars ((c :: cs) ++ sep :: text) := by
    rw [List.append_assoc, List.cons_append]
    exact skipSpace_ofChars hblanks (hword c (by simp))
  have hspan := span_of_all (fun c => !isSpace c) (c :: cs) sep text
    (fun x hx => by simp [hword x hx]) (by simp [hsep])
  simp only [getWord, hskip]
  simp only [ofChars, Bool.false_eq_true, if_false, hspan.1, hspan.2, List.isEmpty_cons]

/-- A stream that is still good has something other than white space next. -/
theorem skipSpace_rest {s : IStream} (h : s.skipSpace.fail = false) :
    ∃ c cs, s.skipSpace.rest = c :: cs ∧ isSpace c = false := by
  unfold skipSpace at h ⊢
  split at h
  · rename_i hgood
    rw [if_pos hgood]
    cases hrest : s.rest.dropWhile isSpace with
    | nil =>
      rw [hrest] at h
      cases h
    | cons c cs =>
      refine ⟨c, cs, rfl, Bool.eq_false_iff.mpr ?_⟩
      have hne : s.rest.dropWhile isSpace ≠ [] := by rw [hrest]; exact List.cons_ne_nil _ _
      have hhead := List.head_dropWhile_not isSpace hne
      simp only [hrest, List.head_cons] at hhead
      exact Bool.eq_false_iff.mp hhead
  · cases h

theorem getWord_isWord {old : String} (s : IStream) (h : (s.getWord old).2.fail = false) :
    IsWord (s.getWord old).1 := by
  unfold getWord at h ⊢
  cases hfail : s.skipSpace.fail with
  | true =>
    simp only [hfail, if_true] at h
    cases h
  | false =>
    obtain ⟨c, cs, hrest, hc⟩ := skipSpace_rest hfail
    simp only [hfail, Bool.false_eq_true, if_false, hrest, List.takeWhile_cons, hc, Bool.not_false,
      if_true, IsWord, String.toList_ofList, List.all_cons, Bool.true_and]
    exact ⟨List.cons_ne_nil _ _, List.all_takeWhile⟩

theorem isSpace_of_isDigit {c : Char} (h : c.isDigit = true) : isSpace c = false := by
  rw [Bool.eq_false_iff]
  intro hs
  simp only [isSpace, Bool.or_eq_true, beq_iff_eq] at hs
  rcases hs with ((((rfl | rfl) | rfl) | rfl) | rfl) | rfl <;> exact absurd h (by decide)

/-! ### Numerals -/

/-- A text of digits, with leading zeros or without. -/
structure IsDigits (cs : List Char) : Prop where
  nonempty : cs ≠ []
  digit : ∀ c ∈ cs, c.isDigit = true

instance (cs : List Char) : Decidable (IsDigits cs) :=
  decidable_of_iff (cs ≠ [] ∧ cs.all Char.isDigit = true)
    ⟨fun h => ⟨h.1, List.all_eq_true.mp h.2⟩, fun h => ⟨h.nonempty, List.all_eq_true.mpr h.digit⟩⟩

theorem toDigits_isDigits (n : Nat) : IsDigits (Nat.toDigits 10 n) where
  nonempty := Nat.toDigits_ne_nil
  digit := fun _ hc => Nat.isDigit_of_mem_toDigits (by decide) (by decide) hc

theorem IsDigits.isEmpty {cs : List Char} (h : IsDigits cs) : cs.isEmpty = false :=
  List.isEmpty_eq_false_iff.mpr h.nonempty

theorem IsDigits.skipSpace {cs blanks : List Char} (h : IsDigits cs) (text : List Char)
    (hblanks : ∀ b ∈ blanks, isSpace b = true) :
    (ofChars (blanks ++ cs ++ text)).skipSpace = ofChars (cs ++ text) := by
  obtain ⟨c, cs, rfl⟩ := List.exists_cons_of_ne_nil h.nonempty
  rw [List.append_assoc, List.cons_append]
  exact skipSpace_ofChars hblanks (isSpace_of_isDigit (h.digit c List.mem_cons_self))

/-- Digits do not start with a sign. -/
theorem IsDigits.head?_beq {cs : List Char} (h : IsDigits cs) (text : List Char) {sign : Char}
    (hsign : sign.isDigit = false) : ((cs ++ text).head? == some sign) = false := by
  obtain ⟨c, cs, rfl⟩ := List.exists_cons_of_ne_nil h.nonempty
  rw [beq_eq_false_iff_ne]
  intro hhead
  cases hhead
  rw [h.digit sign List.mem_cons_self] at hsign
  cases hsign

theorem IsDigits.span {cs : List Char} (h : IsDigits cs) (text : List Char)
    (htext : ∀ c ∈ text.head?, c.isDigit = false) :
    (cs ++ text).takeWhile Char.isDigit = cs ∧ (cs ++ text).dropWhile Char.isDigit = text := by
  cases text with
  | nil =>
    exact ⟨(List.takeWhile_append_of_pos h.digit).trans (List.append_nil _),
      List.dropWhile_append_of_pos h.digit⟩
  | cons c text => exact span_of_all Char.isDigit _ c text h.digit (htext c rfl)

theorem toNat_bounds_of_isDigit {c : Char} (h : c.isDigit = true) :
    48 ≤ c.toNat ∧ c.toNat ≤ 57 := by
  simpa [Char.isDigit, UInt32.le_iff_toNat_le] using h

theorem digit_lt {c : Char} (h : c.isDigit = true) : c.toNat - '0'.toNat < 10 := by
  have hc := toNat_bounds_of_isDigit h
  show c.toNat - 48 < 10
  omega

theorem toDigits_of_isDigit {c : Char} (h : c.isDigit = true) :
    Nat.toDigits 10 (c.toNat - '0'.toNat) = [c] := by
  have hc := toNat_bounds_of_isDigit h
  have hlt := digit_lt h
  rw [Nat.toDigits_of_lt_base hlt, List.singleton_inj, ← Char.toNat_inj,
    Nat.toNat_digitChar_of_lt_ten hlt]
  show 48 + (c.toNat - 48) = c.toNat
  omega

theorem toDigits_ofDigitChars_of_pos {cs : List Char} (h : ∀ c ∈ cs, c.isDigit = true) {n : Nat}
    (hn : 0 < n) : Nat.toDigits 10 (Nat.ofDigitChars 10 cs n) = Nat.toDigits 10 n ++ cs := by
  induction cs generalizing n with
  | nil => exact (List.append_nil _).symm
  | cons c cs ih =>
    have hdigit := h c List.mem_cons_self
    rw [Nat.ofDigitChars_cons, ih (fun d hd => h d (List.mem_cons_of_mem c hd)) (by omega),
      ← Nat.toDigits_append_toDigits (by decide) hn (digit_lt hdigit),
      toDigits_of_isDigit hdigit, List.append_assoc, List.singleton_append]

/-- A number that is printed from digits without a leading zero gives them back. -/
theorem toDigits_ofDigitChars {cs : List Char} (h : IsDigits cs)
    (hzero : cs.head? = some '0' → cs = ['0']) :
    Nat.toDigits 10 (Nat.ofDigitChars 10 cs 0) = cs := by
  obtain ⟨c, cs, rfl⟩ := List.exists_cons_of_ne_nil h.nonempty
  by_cases hc : c = '0'
  · rw [hzero (congrArg some hc)]
    rfl
  · have hdigit := h.digit c List.mem_cons_self
    have hbounds := toNat_bounds_of_isDigit hdigit
    have hne : c.toNat ≠ '0'.toNat := fun heq => hc (Char.toNat_inj.mp heq)
    have hpos : 0 < c.toNat - '0'.toNat := Nat.sub_pos_of_lt (lt_of_le_of_ne hbounds.1 hne.symm)
    rw [Nat.ofDigitChars_cons, Nat.mul_zero, Nat.zero_add,
      toDigits_ofDigitChars_of_pos (fun d hd => h.digit d (List.mem_cons_of_mem c hd)) hpos,
      toDigits_of_isDigit hdigit, List.singleton_append]

theorem isDigit_of_isSpace {c : Char} (h : isSpace c = true) : c.isDigit = false := by
  rw [Bool.eq_false_iff]
  intro hd
  rw [isSpace_of_isDigit hd] at h
  cases h

theorem getUnsigned_ofChars (old n : UInt32) (blanks : List Char) (sep : Char) (text : List Char)
    (hblanks : ∀ b ∈ blanks, isSpace b = true) (hsep : isSpace sep = true) :
    (ofChars (blanks ++ decimal n ++ sep :: text)).getUnsigned old =
      (n, ofChars (sep :: text)) := by
  have htail : ∀ c ∈ (sep :: text).head?, c.isDigit = false := by
    rintro c ⟨⟩
    exact isDigit_of_isSpace hsep
  have hdigits := toDigits_isDigits n.toNat
  have hspan := hdigits.span (sep :: text) htail
  have hminus := hdigits.head?_beq (sep :: text) (rfl : Char.isDigit '-' = false)
  have hplus := hdigits.head?_beq (sep :: text) (rfl : Char.isDigit '+' = false)
  simp only [getUnsigned, decimal, hdigits.skipSpace (sep :: text) hblanks]
  simp only [ofChars, Bool.false_eq_true, if_false, hminus, hplus, Bool.or_self, hspan.1, hspan.2,
    Nat.ofDigitChars_ten_toDigits, hdigits.isEmpty, List.isEmpty_cons]
  rw [if_pos n.toNat_lt, UInt32.ofNat_toNat]

theorem getULongLong_digits (old : UInt64) {cs blanks text : List Char} (h : IsDigits cs)
    (hlt : Nat.ofDigitChars 10 cs 0 < UInt64.size) (hblanks : ∀ b ∈ blanks, isSpace b = true)
    (htext : ∀ c ∈ text.head?, c.isDigit = false) :
    (ofChars (blanks ++ cs ++ text)).getULongLong old =
      (UInt64.ofNat (Nat.ofDigitChars 10 cs 0),
        { rest := text, eof := text.isEmpty, fail := false }) := by
  have hspan := h.span text htext
  have hminus := h.head?_beq text (rfl : Char.isDigit '-' = false)
  have hplus := h.head?_beq text (rfl : Char.isDigit '+' = false)
  simp only [getULongLong, h.skipSpace text hblanks]
  simp only [ofChars, Bool.false_eq_true, if_false, hminus, hplus, Bool.or_self, hspan.1, hspan.2,
    h.isEmpty]
  exact if_pos hlt

theorem getULongLong_all (old : UInt64) {cs : List Char} (h : IsDigits cs)
    (hlt : Nat.ofDigitChars 10 cs 0 < UInt64.size) :
    ((ofChars cs).getULongLong old).1 = UInt64.ofNat (Nat.ofDigitChars 10 cs 0) := by
  have hread : (ofChars ([] ++ cs ++ [])).getULongLong old = _ := getULongLong_digits old h hlt
    (fun _ hb => absurd hb List.not_mem_nil) (fun _ hc => by cases hc)
  rw [List.nil_append, List.append_nil] at hread
  rw [hread]

theorem getULongLong_ofChars (old n : UInt64) (blanks text : List Char)
    (hblanks : ∀ b ∈ blanks, isSpace b = true) (htext : ∀ c ∈ text.head?, c.isDigit = false) :
    (ofChars (blanks ++ decimal64 n ++ text)).getULongLong old =
      (n, { rest := text, eof := text.isEmpty, fail := false }) := by
  have hvalue : Nat.ofDigitChars 10 (decimal64 n) 0 = n.toNat := Nat.ofDigitChars_ten_toDigits
  have hlt : Nat.ofDigitChars 10 (decimal64 n) 0 < UInt64.size := by
    rw [hvalue]
    exact n.toNat_lt
  have hdigits : IsDigits (decimal64 n) := toDigits_isDigits n.toNat
  rw [getULongLong_digits old hdigits hlt hblanks htext, hvalue, UInt64.ofNat_toNat]

theorem getULongLong_blank (old : UInt64) (blanks : List Char)
    (h : ∀ b ∈ blanks, isSpace b = true) : ((ofChars blanks).getULongLong old).2.fail = true := by
  simp only [getULongLong, skipSpace_blank h, if_true]

theorem IsDigits.isWord {cs : List Char} (h : IsDigits cs) : IsWord (String.ofList cs) := by
  unfold IsWord
  rw [String.toList_ofList]
  refine ⟨h.nonempty, List.all_eq_true.mpr fun c hc => ?_⟩
  rw [isSpace_of_isDigit (h.digit c hc)]
  rfl

theorem decimal64_isWord (n : UInt64) : IsWord (String.ofList (decimal64 n)) :=
  (toDigits_isDigits n.toNat).isWord

theorem getChar_ofChars (c : Char) (text : List Char) :
    (ofChars (c :: text)).getChar = ofChars text := rfl

theorem getLine_ofChars (old : String) (line text : List Char) (h : '\n' ∉ line) :
    (ofChars (line ++ '\n' :: text)).getLine old = (String.ofList line, ofChars text) := by
  have hspan := span_of_all (· != '\n') line '\n' text
    (fun x hx => by
      simp only [bne_iff_ne, ne_eq]
      rintro rfl
      exact h hx) (by simp)
  simp only [getLine, good, ofChars, Bool.not_false, Bool.and_self, if_true, hspan.1, hspan.2]

end IStream
end Text
end Frangipani

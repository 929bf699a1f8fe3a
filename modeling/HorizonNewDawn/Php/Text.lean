import Mathlib.Algebra.Order.Field.Rat
import Mathlib.Data.List.TakeWhile
import Mathlib.Data.String.Basic

/-! # Strings of PHP

The string functions the source calls. Strings stand as their characters; comparing the characters
of two strings gives what comparing their bytes gives. -/

namespace HorizonNewDawn

/-- `strcmp`: strings in the order of their bytes, which is the order of their code points. -/
def strcmp (a b : String) : Ordering := compare a b

/-- Strings are compared by their characters. -/
theorem strcmp_eq_lt {a b : String} : strcmp a b = .lt ↔ a < b := compare_lt_iff_lt

/-- No string stands before the empty one. -/
theorem not_lt_empty {s : String} : ¬s < "" := by
  rw [String.lt_iff_toList_lt]
  exact List.not_lt_nil s.toList

namespace Php

/-- The characters `trim` strips: space, tabulators, line ends and the null character. -/
def isTrimmed (c : Char) : Bool := c.toNat ∈ [32, 9, 10, 13, 0, 11]

/-- `trim` -/
def trim (s : String) : String :=
  String.ofList ((((s.toList.dropWhile isTrimmed).reverse).dropWhile isTrimmed).reverse)

/-- White space around a numeric string. -/
def isSpace (c : Char) : Bool := c.toNat ∈ [32, 9, 10, 13, 11, 12]

/-- Characters without the white space around them. -/
def stripSpace (cs : List Char) : List Char :=
  ((cs.dropWhile isSpace).reverse.dropWhile isSpace).reverse

/-- The sign before a number, and what follows it. -/
def sign : List Char → Bool × List Char
  | '-' :: cs => (true, cs)
  | '+' :: cs => (false, cs)
  | cs => (false, cs)

/-- The number that decimal digits denote. -/
def digitsNumber (ds : List Char) : ℕ := ds.foldl (fun n c => 10 * n + (c.toNat - '0'.toNat)) 0

/-- The exponent of a number. -/
def exponentOf : List Char → Option ℤ
  | [] => some 0
  | c :: cs =>
      let (negative, ds) := sign cs
      if (c = 'e' ∨ c = 'E') ∧ ds ≠ [] ∧ ds.all Char.isDigit then
        some (if negative then -(digitsNumber ds : ℤ) else digitsNumber ds)
      else none

/-- The digits after a decimal point, and what follows them. -/
def fractionOf : List Char → List Char × List Char
  | '.' :: cs => (cs.takeWhile Char.isDigit, cs.dropWhile Char.isDigit)
  | cs => ([], cs)

/-- The number that characters without a sign denote. -/
def decimalOf (cs : List Char) : Option ℚ :=
  let whole := cs.takeWhile Char.isDigit
  let (fraction, rest) := fractionOf (cs.dropWhile Char.isDigit)
  if whole = [] ∧ fraction = [] then none
  else (exponentOf rest).map fun e : ℤ =>
    (digitsNumber (whole ++ fraction) : ℚ) * (10 : ℚ) ^ (e - (fraction.length : ℤ))

/-- The number a numeric string denotes, `none` for any other string. -/
def numeric (s : String) : Option ℚ :=
  let (negative, cs) := sign (stripSpace s.toList)
  (decimalOf cs).map fun x => if negative then -x else x

/-- Characters that do not begin with white space begin as before without it. -/
theorem exists_stripSpace_cons {c : Char} (cs : List Char) (h : isSpace c = false) :
    ∃ cs', stripSpace (c :: cs) = c :: cs' := by
  rw [stripSpace, List.dropWhile_cons_of_neg (by simp [h]), List.reverse_cons, List.dropWhile_append]
  split
  · exact ⟨[], by simp [h]⟩
  · exact ⟨(cs.reverse.dropWhile isSpace).reverse, by simp⟩

/-- A string that begins with a small letter is not numeric. -/
theorem numeric_eq_none {s : String} {c : Char} {cs : List Char} (hs : s.toList = c :: cs)
    (hletter : 97 ≤ c.toNat) : numeric s = none := by
  have hspace : isSpace c = false := by
    simp only [isSpace, decide_eq_false_iff_not, List.mem_cons, List.not_mem_nil, or_false]
    omega
  have hdigit : ¬c.isDigit = true := by
    have hnine : '9'.toNat = 57 := rfl
    rw [Char.isDigit_iff_toNat, hnine]
    omega
  have hne : ∀ d : Char, d.toNat < 97 → c ≠ d := by
    rintro d hd rfl
    omega
  obtain ⟨cs', hcs'⟩ := exists_stripSpace_cons cs hspace
  have hsign : sign (c :: cs') = (false, c :: cs') := by
    unfold sign
    split
    · exact absurd (List.cons.inj ‹_›).1 (hne '-' (by decide))
    · exact absurd (List.cons.inj ‹_›).1 (hne '+' (by decide))
    · rfl
  have hfraction : fractionOf (c :: cs') = ([], c :: cs') := by
    unfold fractionOf
    split
    · exact absurd (List.cons.inj ‹_›).1 (hne '.' (by decide))
    · rfl
  have hdecimal : decimalOf (c :: cs') = none := by
    simp [decimalOf, List.takeWhile_cons_of_neg hdigit, List.dropWhile_cons_of_neg hdigit, hfraction]
  rw [numeric, hs, hcs', hsign]
  simp [hdecimal]

/-- `<=>` of two strings: numeric strings compare as numbers, all others by their bytes. -/
def spaceship (a b : String) : Ordering :=
  match numeric a, numeric b with
  | some x, some y => compare x y
  | _, _ => strcmp a b

/-- A string that is no number is compared as a string. -/
theorem spaceship_eq_strcmp {a : String} (h : numeric a = none) (b : String) :
    spaceship a b = strcmp a b := by
  rw [spaceship, h]

/-- Digits are no white space and no sign. -/
theorem isSpace_of_isDigit {c : Char} (h : c.isDigit) : isSpace c = false := by
  rw [Char.isDigit, Bool.and_eq_true, decide_eq_true_eq, decide_eq_true_eq] at h
  have hlow : 48 ≤ c.toNat := UInt32.le_iff_toNat_le.mp h.1
  rw [isSpace, decide_eq_false_iff_not]
  simp only [List.mem_cons, List.not_mem_nil, or_false]
  omega

/-- Digits denote a number. -/
theorem decimalOf_isSome {ds : List Char} (hds : ds ≠ []) (h : ∀ c ∈ ds, c.isDigit) :
    (decimalOf ds).isSome := by
  have hwhole : ds.takeWhile Char.isDigit = ds := List.takeWhile_eq_self_iff.mpr h
  have hrest : ds.dropWhile Char.isDigit = [] := List.dropWhile_eq_nil_iff.mpr h
  rw [decimalOf, hwhole, hrest]
  simp [fractionOf, exponentOf, hds]

/-- Without white space nothing is stripped. -/
theorem stripSpace_of_forall {cs : List Char} (h : ∀ c ∈ cs, isSpace c = false) :
    stripSpace cs = cs := by
  have hdrop : ∀ l : List Char, (∀ c ∈ l, isSpace c = false) → l.dropWhile isSpace = l := by
    intro l hl
    refine List.dropWhile_eq_self_iff.mpr fun hpos => ?_
    rw [hl _ (List.getElem_mem hpos)]
    exact Bool.false_ne_true
  rw [stripSpace, hdrop cs h, hdrop cs.reverse fun c hc => h c (List.mem_reverse.mp hc),
    List.reverse_reverse]

/-- A digit is no sign. -/
theorem sign_of_isDigit {c : Char} (h : c.isDigit) (cs : List Char) :
    sign (c :: cs) = (false, c :: cs) := by
  unfold sign
  split
  · rename_i hcons
    rw [List.cons.injEq] at hcons
    rw [hcons.1] at h
    exact absurd h (by decide)
  · rename_i hcons
    rw [List.cons.injEq] at hcons
    rw [hcons.1] at h
    exact absurd h (by decide)
  · rfl

/-- Digits, with or without a minus sign, are numeric. -/
theorem numeric_isSome {s : String} {ds : List Char} (hds : ds ≠ []) (h : ∀ c ∈ ds, c.isDigit)
    (hs : s.toList = ds ∨ s.toList = '-' :: ds) : (numeric s).isSome := by
  have hspace : ∀ c ∈ ds, isSpace c = false := fun c hc => isSpace_of_isDigit (h c hc)
  rcases hs with hs | hs
  · obtain ⟨c, cs, rfl⟩ := List.exists_cons_of_ne_nil hds
    rw [numeric, hs, stripSpace_of_forall hspace, sign_of_isDigit (h c List.mem_cons_self)]
    rw [Option.isSome_map]
    exact decimalOf_isSome hds h
  · have hminus : ∀ c ∈ '-' :: ds, isSpace c = false := by
      intro c hc
      rcases List.mem_cons.mp hc with rfl | hc
      · decide
      · exact hspace c hc
    rw [numeric, hs, stripSpace_of_forall hminus, sign, Option.isSome_map]
    exact decimalOf_isSome hds h

/-- The bytes of a string. -/
def bytes (s : String) : List UInt8 := s.toByteArray.data.toList

/-- The string with these bytes, if they are well-formed. -/
def ofBytes (bytes : List UInt8) : Option String := String.fromUTF8? ⟨bytes.toArray⟩

/-- A string is read from its bytes. -/
@[simp] theorem ofBytes_bytes (s : String) : ofBytes (bytes s) = some s := by
  rw [ofBytes, bytes, Array.toArray_toList, String.fromUTF8?, dif_pos s.isValidUTF8]
  rfl

/-- A value that is a string and not empty. -/
def nonEmpty (value : Option String) : Option String := value.filter fun s => s ≠ ""

end Php

end HorizonNewDawn

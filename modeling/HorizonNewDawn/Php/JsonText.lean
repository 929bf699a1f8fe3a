import HorizonNewDawn.Php.Json

/-! # JSON texts

`json_encode` writes a document (`spell`) and `json_decode` reads one (`read`). A document whose
integers fit into 64 bits and that is not nested too deeply is read back from its text
(`read_spell`). -/

namespace HorizonNewDawn

namespace Json

/-! ## Writing -/

/-- A string in quotes. -/
def spellString (s : String) : List Char := '"' :: (s.toList.flatMap encodeChar ++ ['"'])

mutual

/-- The text of a document as `json_encode` writes it. -/
def spell : Json → List Char
  | .null => ['n', 'u', 'l', 'l']
  | .bool true => ['t', 'r', 'u', 'e']
  | .bool false => ['f', 'a', 'l', 's', 'e']
  | .num n => (toString n).toList
  | .real literal => literal.toList
  | .str s => spellString s
  | .arr values => '[' :: spellValues values
  | .obj members => '{' :: spellMembers members

/-- The values of a list, up to the closing bracket. -/
def spellValues : List Json → List Char
  | [] => [']']
  | [v] => spell v ++ [']']
  | v :: w :: values => spell v ++ ',' :: spellValues (w :: values)

/-- The members of an object, up to the closing brace. -/
def spellMembers : List (String × Json) → List Char
  | [] => ['}']
  | [(key, v)] => spellString key ++ ':' :: (spell v ++ ['}'])
  | (key, v) :: m :: members => spellString key ++ ':' :: (spell v ++ ',' :: spellMembers (m :: members))

end

/-! ## Reading -/

/-- White space between the parts of a text. -/
def isSpace (c : Char) : Bool := c.toNat ∈ [9, 10, 13, 32]

/-- Skip white space. -/
def skip (text : List Char) : List Char := text.dropWhile isSpace

/-- The value of a hexadecimal digit. -/
def hexValue (c : Char) : Option ℕ :=
  if c.isDigit then some (c.toNat - 48)
  else if 'a'.toNat ≤ c.toNat ∧ c.toNat ≤ 'f'.toNat then some (c.toNat - 87)
  else if 'A'.toNat ≤ c.toNat ∧ c.toNat ≤ 'F'.toNat then some (c.toNat - 55)
  else none

/-- The UTF-16 code unit of four hexadecimal digits. -/
def codeUnit (a b c d : Char) : Option ℕ :=
  match hexValue a, hexValue b, hexValue c, hexValue d with
  | some a, some b, some c, some d => some (((a * 16 + b) * 16 + c) * 16 + d)
  | _, _, _, _ => none

/-- The character a letter behind a backslash stands for. -/
def unescape (c : Char) : Option Char :=
  if c = '"' ∨ c = '\\' ∨ c = '/' then some c
  else if c = 'b' then some (Char.ofNat 8)
  else if c = 'f' then some (Char.ofNat 12)
  else if c = 'n' then some (Char.ofNat 10)
  else if c = 'r' then some (Char.ofNat 13)
  else if c = 't' then some (Char.ofNat 9)
  else none

/-- Put a character in front of what was read. -/
def consChar (c : Char) (r : List Char × List Char) : List Char × List Char := (c :: r.1, r.2)

/-- The characters of a string up to the closing quote, and the rest of the text. -/
def unquote : List Char → Option (List Char × List Char)
  | [] => none
  | c :: text =>
      if c = '"' then some ([], text)
      else if c = '\\' then
        match text with
        | [] => none
        | e :: text =>
            if e = 'u' then
              match text with
              | h₁ :: h₂ :: h₃ :: h₄ :: text =>
                  match codeUnit h₁ h₂ h₃ h₄ with
                  | none => none
                  | some n =>
                      if 55296 ≤ n ∧ n < 56320 then
                        -- The first half of a surrogate pair needs the second one.
                        match text with
                        | b :: u :: l₁ :: l₂ :: l₃ :: l₄ :: text =>
                            if b = '\\' ∧ u = 'u' then
                              match codeUnit l₁ l₂ l₃ l₄ with
                              | none => none
                              | some m =>
                                  if 56320 ≤ m ∧ m < 57344 then
                                    (unquote text).map
                                      (consChar (Char.ofNat (65536 + (n - 55296) * 1024 + (m - 56320))))
                                  else none
                            else none
                        | _ => none
                      else if 56320 ≤ n ∧ n < 57344 then none
                      else (unquote text).map (consChar (Char.ofNat n))
              | _ => none
            else
              match unescape e with
              | none => none
              | some c' => (unquote text).map (consChar c')
      else if c.toNat < 32 then none
      else (unquote text).map (consChar c)

/-- The digits behind the point of a number, if there is one. -/
def fraction : List Char → Option (List Char × List Char)
  | [] => some ([], [])
  | c :: text =>
      if c = '.' then
        if text.takeWhile Char.isDigit = [] then none
        else some ('.' :: text.takeWhile Char.isDigit, text.dropWhile Char.isDigit)
      else some ([], c :: text)

/-- The exponent of a number, if there is one. -/
def exponent : List Char → Option (List Char × List Char)
  | [] => some ([], [])
  | c :: text =>
      if c = 'e' ∨ c = 'E' then
        let sign := if text.head? = some '+' ∨ text.head? = some '-' then text.take 1 else []
        let digits := text.drop sign.length
        if digits.takeWhile Char.isDigit = [] then none
        else some (c :: sign ++ digits.takeWhile Char.isDigit, digits.dropWhile Char.isDigit)
      else some ([], c :: text)

/-- The number with a sign, digits and what follows the digits: an integer where it fits into 64
bits and nothing follows. -/
def numeral (negative : Bool) (digits tail : List Char) : Json :=
  let n : ℤ := if negative then -(Nat.ofDigitChars 10 digits 0) else Nat.ofDigitChars 10 digits 0
  if tail = [] ∧ -9223372036854775808 ≤ n ∧ n ≤ 9223372036854775807 ∧ ¬(negative ∧ n = 0) then
    .num n
  else .real (String.ofList ((if negative then ['-'] else []) ++ digits ++ tail))

/-- Read a number. -/
def number (text : List Char) : Option (Json × List Char) :=
  let negative := text.head? = some '-'
  let text := if negative then text.tail else text
  let digits := text.takeWhile Char.isDigit
  if digits = [] ∨ digits.head? = some '0' ∧ digits.length ≠ 1 then none
  else
    match fraction (text.dropWhile Char.isDigit) with
    | none => none
    | some (f, text) =>
        match exponent text with
        | none => none
        | some (e, text) => some (numeral negative digits (f ++ e), text)

/-- Read one of the words of the notation, in either case. -/
def word (text : List Char) : Option (Json × List Char) :=
  if (text.take 4).map Char.toLower = ['n', 'u', 'l', 'l'] then some (.null, text.drop 4)
  else if (text.take 4).map Char.toLower = ['t', 'r', 'u', 'e'] then
    some (.bool true, text.drop 4)
  else if (text.take 5).map Char.toLower = ['f', 'a', 'l', 's', 'e'] then
    some (.bool false, text.drop 5)
  else none

mutual

/-- Read a value; `depth` more lists or objects may be opened. -/
def value : ℕ → ℕ → List Char → Option (Json × List Char)
  | 0, _, _ => none
  | fuel + 1, depth, text =>
      match skip text with
      | [] => none
      | c :: text =>
          if c = '"' then (unquote text).map fun r => (.str (String.ofList r.1), r.2)
          else if c = '{' then
            match depth, skip text with
            | depth + 1, b :: text =>
                if b = '}' then some (.obj [], text)
                else (members fuel depth (b :: text)).map fun r => (.obj r.1, r.2)
            | _, _ => none
          else if c = '[' then
            match depth, skip text with
            | depth + 1, b :: text =>
                if b = ']' then some (.arr [], text)
                else (elements fuel depth (b :: text)).map fun r => (.arr r.1, r.2)
            | _, _ => none
          else if c = '-' ∨ c.isDigit then number (c :: text)
          else word (c :: text)

/-- Read the values of a list up to the closing bracket. -/
def elements : ℕ → ℕ → List Char → Option (List Json × List Char)
  | 0, _, _ => none
  | fuel + 1, depth, text =>
      match value fuel depth text with
      | none => none
      | some (v, text) =>
          match skip text with
          | [] => none
          | c :: text =>
              if c = ',' then (elements fuel depth text).map fun r => (v :: r.1, r.2)
              else if c = ']' then some ([v], text)
              else none

/-- Read the members of an object up to the closing brace. -/
def members : ℕ → ℕ → List Char → Option (List (String × Json) × List Char)
  | 0, _, _ => none
  | fuel + 1, depth, text =>
      match skip text with
      | [] => none
      | q :: text =>
          match (if q = '"' then unquote text else none) with
          | none => none
          | some (key, text) =>
              match skip text with
              | [] => none
              | c :: text =>
                  match (if c = ':' then value fuel depth text else none) with
                  | none => none
                  | some (v, text) =>
                      match skip text with
                      | [] => none
                      | c :: text =>
                          if c = ',' then
                            (members fuel depth text).map fun r =>
                              ((String.ofList key, v) :: r.1, r.2)
                          else if c = '}' then some ([(String.ofList key, v)], text)
                          else none

end

/-- The document of a text, as `json_decode` reads it. -/
def read (text : List Char) : Option Json :=
  match value text.length 512 text with
  | some (v, rest) => if skip rest = [] then some v else none
  | none => none

/-! ## Strings -/

variable {c : Char} {text rest : List Char}

/-- A digit has its value. -/
theorem hexValue_digitChar {n : ℕ} (hn : n < 16) : hexValue (Nat.digitChar n) = some n := by
  have hall : ∀ n < 16, hexValue (Nat.digitChar n) = some n := by decide +kernel
  exact hall n hn

/-- The code unit of the digits that spell it. -/
theorem codeUnit_hex4 {n : ℕ} (hn : n < 65536) :
    ∃ a b c d, hex4 n = [a, b, c, d] ∧ codeUnit a b c d = some n := by
  refine ⟨_, _, _, _, rfl, ?_⟩
  rw [codeUnit, hexValue_digitChar (Nat.mod_lt _ (by decide)),
    hexValue_digitChar (Nat.mod_lt _ (by decide)), hexValue_digitChar (Nat.mod_lt _ (by decide)),
    hexValue_digitChar (Nat.mod_lt _ (by decide))]
  simp only [Option.some.injEq]
  omega

/-- A single letter behind a backslash. -/
theorem unquote_unescape {e : Char} (he : e ≠ 'u') (hc : unescape e = some c) :
    unquote ('\\' :: e :: text) = (unquote text).map (consChar c) := by
  rw [unquote.eq_def]
  simp only [he, hc, if_pos, if_false, Char.reduceEq]

/-- A code unit that is not half of a surrogate pair. -/
theorem unquote_codeUnit {n : ℕ} (hn : n < 65536) (hc : n < 55296 ∨ 57344 ≤ n) :
    unquote ('\\' :: 'u' :: (hex4 n ++ text)) = (unquote text).map (consChar (Char.ofNat n)) := by
  obtain ⟨a, b, c, d, hdigits, hunit⟩ := codeUnit_hex4 hn
  rw [hdigits, unquote.eq_def]
  simp only [List.cons_append, List.nil_append, if_pos, if_false, Char.reduceEq, hunit]
  rw [if_neg (by omega), if_neg (by omega)]

/-- A surrogate pair. -/
theorem unquote_surrogates {n m : ℕ} (hn : 55296 ≤ n ∧ n < 56320) (hm : 56320 ≤ m ∧ m < 57344) :
    unquote ('\\' :: 'u' :: (hex4 n ++ '\\' :: 'u' :: (hex4 m ++ text))) =
      (unquote text).map (consChar (Char.ofNat (65536 + (n - 55296) * 1024 + (m - 56320)))) := by
  obtain ⟨a, b, c, d, hdigits, hunit⟩ := codeUnit_hex4 (n := n) (by omega)
  obtain ⟨a', b', c', d', hdigits', hunit'⟩ := codeUnit_hex4 (n := m) (by omega)
  rw [hdigits, hdigits', unquote.eq_def]
  simp only [List.cons_append, List.nil_append, if_pos, if_false, Char.reduceEq, hunit]
  rw [if_pos hn, if_pos ⟨trivial, trivial⟩, hunit']
  simp only
  rw [if_pos hm]

/-- **A character is read as it was written.** -/
theorem unquote_encodeChar : unquote (encodeChar c ++ text) = (unquote text).map (consChar c) := by
  have hvalid : c.toNat < 55296 ∨ 57343 < c.toNat ∧ c.toNat < 1114112 := c.valid
  have hself : Char.ofNat c.toNat = c := Char.ofNat_toNat c
  have hof : ∀ n, c.toNat = n → Char.ofNat n = c := fun n hn => by rw [← hn, hself]
  rw [encodeChar]
  split_ifs with hquote hslash hsolidus h8 h9 h10 h12 h13 hunit hascii
  · rw [hquote]
    exact unquote_unescape (by decide) rfl
  · rw [hslash]
    exact unquote_unescape (by decide) rfl
  · rw [hsolidus]
    exact unquote_unescape (by decide) rfl
  · exact unquote_unescape (by decide) (by rw [← hof 8 h8]; rfl)
  · exact unquote_unescape (by decide) (by rw [← hof 9 h9]; rfl)
  · exact unquote_unescape (by decide) (by rw [← hof 10 h10]; rfl)
  · exact unquote_unescape (by decide) (by rw [← hof 12 h12]; rfl)
  · exact unquote_unescape (by decide) (by rw [← hof 13 h13]; rfl)
  · rw [List.cons_append, List.cons_append, unquote_codeUnit (by omega) (by omega), hself]
  · -- A character of ASCII stands for itself.
    rw [List.singleton_append, unquote.eq_def]
    simp only
    rw [if_neg hquote, if_neg hslash, if_neg (by omega)]
  · have happend : ('\\' :: 'u' :: hex4 (55296 + (c.toNat - 65536) / 1024) ++
        '\\' :: 'u' :: hex4 (56320 + (c.toNat - 65536) % 1024)) ++ text =
          '\\' :: 'u' :: (hex4 (55296 + (c.toNat - 65536) / 1024) ++
            '\\' :: 'u' :: (hex4 (56320 + (c.toNat - 65536) % 1024) ++ text)) := by
      simp only [List.cons_append, List.append_assoc]
    rw [happend, unquote_surrogates (by omega) (by omega), hof _ (by omega)]

/-- **A string is read as it was written.** -/
theorem unquote_spellString (s : List Char) :
    unquote (s.flatMap encodeChar ++ '"' :: rest) = some (s, rest) := by
  induction s with
  | nil =>
      rw [List.flatMap_nil, List.nil_append, unquote.eq_def]
      exact if_pos rfl
  | cons c s ih =>
      rw [List.flatMap_cons, List.append_assoc, unquote_encodeChar, ih]
      rfl

/-! ## Numbers -/

/-- A text that does not go on with a number. -/
def Ends (rest : List Char) : Prop :=
  ∀ c ∈ rest.head?, c.isDigit = false ∧ c ≠ '.' ∧ c ≠ 'e' ∧ c ≠ 'E'

/-- The digits in front of a text that ends them. -/
theorem takeWhile_digits {digits : List Char} (hdigits : ∀ c ∈ digits, c.isDigit)
    (hrest : Ends rest) : (digits ++ rest).takeWhile Char.isDigit = digits ∧
      (digits ++ rest).dropWhile Char.isDigit = rest := by
  rw [List.takeWhile_append_of_pos hdigits, List.dropWhile_append_of_pos hdigits]
  cases rest with
  | nil => exact ⟨List.append_nil _, rfl⟩
  | cons c rest =>
      have hc : c.isDigit = false := (hrest c rfl).1
      rw [List.takeWhile_cons_of_neg (by simp [hc]), List.dropWhile_cons_of_neg (by simp [hc])]
      exact ⟨List.append_nil _, rfl⟩

/-- There is no fraction where a number ends. -/
theorem fraction_of_ends (h : Ends rest) : fraction rest = some ([], rest) := by
  cases rest with
  | nil => rfl
  | cons c rest => rw [fraction, if_neg (h c rfl).2.1]

/-- Nor is there an exponent. -/
theorem exponent_of_ends (h : Ends rest) : exponent rest = some ([], rest) := by
  cases rest with
  | nil => rfl
  | cons c rest =>
      rw [exponent, if_neg]
      rintro (hc | hc)
      · exact (h c rfl).2.2.1 hc
      · exact (h c rfl).2.2.2 hc

/-- The decimal digits of a positive number do not start with zero. -/
theorem head_toDigits {n : ℕ} (hn : 0 < n) : (Nat.toDigits 10 n).head? ≠ some '0' := by
  induction n using Nat.strongRecOn with
  | ind n ih =>
      rcases Nat.lt_or_ge n 10 with hlt | hge
      · rw [Nat.toDigits_of_lt_base hlt]
        have hall : ∀ n < 10, 0 < n → [Nat.digitChar n].head? ≠ some '0' := by decide
        exact hall n hlt hn
      · rw [Nat.toDigits_of_base_le (by decide) hge]
        have hne : Nat.toDigits 10 (n / 10) ≠ [] := Nat.toDigits_ne_nil
        rw [List.head?_append_of_ne_nil _ hne]
        exact ih (n / 10) (by omega) (by omega)

/-- The digits of a number, with a sign or without one, are read. -/
theorem number_digits {negative : Bool} {n : ℕ} (hrest : Ends rest) :
    number ((if negative then ['-'] else []) ++ (Nat.toDigits 10 n ++ rest)) =
      some (numeral negative (Nat.toDigits 10 n) [], rest) := by
  have hdigit : ∀ c ∈ Nat.toDigits 10 n, c.isDigit :=
    fun c hc => Nat.isDigit_of_mem_toDigits (by decide) (by decide) hc
  obtain ⟨htake, hdrop⟩ := takeWhile_digits hdigit hrest
  have hhead : ¬(Nat.toDigits 10 n = [] ∨
      (Nat.toDigits 10 n).head? = some '0' ∧ (Nat.toDigits 10 n).length ≠ 1) := by
    rintro (hnil | ⟨hzero, hlength⟩)
    · exact Nat.toDigits_ne_nil hnil
    · rcases Nat.eq_zero_or_pos n with rfl | hpos
      · exact hlength rfl
      · exact head_toDigits hpos hzero
  have hsigned : ∀ text, text.head? ≠ some '-' →
      (let negative' := ((if negative then ['-'] else []) ++ text).head? = some '-'
      negative' = (negative = true) ∧
        (if negative' then ((if negative then ['-'] else []) ++ text).tail
          else (if negative then ['-'] else []) ++ text) = text) := by
    intro text htext
    cases negative
    · simp [htext]
    · simp
  have hminus : (Nat.toDigits 10 n ++ rest).head? ≠ some '-' := by
    rw [List.head?_append_of_ne_nil _ Nat.toDigits_ne_nil]
    intro hhead
    have hmem : '-' ∈ Nat.toDigits 10 n := List.mem_of_mem_head? hhead
    exact absurd (hdigit '-' hmem) (by decide)
  obtain ⟨hnegative, htext⟩ := hsigned _ hminus
  rw [number]
  simp only [hnegative] at htext ⊢
  rw [htext, htake, hdrop, if_neg hhead, fraction_of_ends hrest]
  simp only
  rw [exponent_of_ends hrest]
  simp only [List.append_nil, Bool.decide_eq_true]

/-- **An integer of 64 bits is read as it was written.** -/
theorem number_spell {n : ℤ} (hmin : -9223372036854775808 ≤ n) (hmax : n ≤ 9223372036854775807)
    (hrest : Ends rest) : number ((toString n).toList ++ rest) = some (.num n, rest) := by
  have hvalue : ∀ m, Nat.ofDigitChars 10 (Nat.toDigits 10 m) 0 = m :=
    fun m => Nat.ofDigitChars_ten_toDigits
  cases n with
  | ofNat m =>
      have htext : (toString (Int.ofNat m)).toList ++ rest =
          (if false then ['-'] else []) ++ (Nat.toDigits 10 m ++ rest) := by
        show (Nat.repr m).toList ++ rest = Nat.toDigits 10 m ++ rest
        rw [Nat.toList_repr]
      rw [htext, number_digits hrest, numeral, hvalue]
      simp only [Bool.false_eq_true, if_false, false_and, not_false_eq_true, and_true, true_and]
      rw [if_pos ⟨hmin, hmax⟩]
      rfl
  | negSucc m =>
      have htext : (toString (Int.negSucc m)).toList ++ rest =
          (if true then ['-'] else []) ++ (Nat.toDigits 10 (m + 1) ++ rest) := by
        show ("-" ++ Nat.repr (m + 1)).toList ++ rest = '-' :: (Nat.toDigits 10 (m + 1) ++ rest)
        rw [String.toList_append, Nat.toList_repr]
        rfl
      have hneg : -((m + 1 : ℕ) : ℤ) = Int.negSucc m := rfl
      rw [htext, number_digits hrest, numeral, hvalue]
      simp only [if_true, true_and, hneg]
      rw [if_pos ⟨hmin, hmax, by simp⟩]

/-! ## Documents -/

/-- A document `json_encode` can write: its integers fit into 64 bits, its other numbers are spelled
as numbers, and at most `depth` lists and objects stand in each other. -/
inductive Spellable : ℕ → Json → Prop
  | null {depth : ℕ} : Spellable depth .null
  | bool {depth : ℕ} (b : Bool) : Spellable depth (.bool b)
  | num {depth : ℕ} {n : ℤ} (hmin : -9223372036854775808 ≤ n) (hmax : n ≤ 9223372036854775807) :
      Spellable depth (.num n)
  | real {depth : ℕ} {literal : String} {c : Char} {tail : List Char}
      (hhead : literal.toList = c :: tail) (hc : c = '-' ∨ c.isDigit)
      (hread : ∀ rest, Ends rest → number (literal.toList ++ rest) = some (.real literal, rest)) :
      Spellable depth (.real literal)
  | str {depth : ℕ} (s : String) : Spellable depth (.str s)
  | arr {depth : ℕ} {values : List Json} (h : ∀ v ∈ values, Spellable depth v) :
      Spellable (depth + 1) (.arr values)
  | obj {depth : ℕ} {members : List (String × Json)} (h : ∀ m ∈ members, Spellable depth m.2) :
      Spellable (depth + 1) (.obj members)

/-- A value is read from the text that starts with it. -/
def Reads (depth : ℕ) (v : Json) : Prop :=
  ∀ fuel rest, (spell v).length ≤ fuel → Ends rest →
    value fuel depth (spell v ++ rest) = some (v, rest)

/-- Nothing is skipped in front of another character. -/
theorem skip_cons (hc : isSpace c = false) : skip (c :: text) = c :: text := by
  rw [skip, List.dropWhile_cons_of_neg (by simp [hc])]

/-- A separator ends a number. -/
theorem ends_cons (hc : c = ',' ∨ c = ']' ∨ c = '}') : Ends (c :: rest) := by
  intro b hb
  obtain rfl := Option.some.inj hb
  rcases hc with rfl | rfl | rfl <;> decide

/-- A sign or a digit is neither white space nor a bracket. -/
theorem isSpace_of_sign (hc : c = '-' ∨ c.isDigit) : isSpace c = false ∧ c ≠ ']' := by
  rcases hc with rfl | hc
  · decide
  · have hrange : 48 ≤ c.toNat ∧ c.toNat ≤ 57 := by
      simpa [Char.isDigit, UInt32.le_iff_toNat_le] using hc
    refine ⟨?_, ?_⟩
    · rw [isSpace, decide_eq_false_iff_not]
      simp only [List.mem_cons, List.not_mem_nil, or_false]
      omega
    · rintro rfl
      exact absurd hrange (by decide)

/-- The text of an integer starts with a sign or a digit. -/
theorem toList_toString_eq_cons (n : ℤ) :
    ∃ c tail, (toString n).toList = c :: tail ∧ (c = '-' ∨ c.isDigit) := by
  cases n with
  | ofNat m =>
      obtain ⟨c, tail, hdigits⟩ := List.exists_cons_of_ne_nil
        (Nat.toDigits_ne_nil (n := m) (b := 10))
      have hmem : c ∈ Nat.toDigits 10 m := by
        rw [hdigits]
        exact List.mem_cons_self
      refine ⟨c, tail, ?_, Or.inr (Nat.isDigit_of_mem_toDigits (by decide) (by decide) hmem)⟩
      show (Nat.repr m).toList = c :: tail
      rw [Nat.toList_repr, hdigits]
  | negSucc m =>
      refine ⟨'-', (Nat.repr (m + 1)).toList, ?_, Or.inl rfl⟩
      show ("-" ++ Nat.repr (m + 1)).toList = '-' :: (Nat.repr (m + 1)).toList
      rw [String.toList_append]
      rfl

/-- The text of a value is not empty, and does not start with white space or a closing bracket. -/
theorem spell_eq_cons {depth : ℕ} {v : Json} (h : Spellable depth v) :
    ∃ c tail, spell v = c :: tail ∧ isSpace c = false ∧ c ≠ ']' := by
  cases h with
  | null => exact ⟨_, _, rfl, by decide, by decide⟩
  | bool b => cases b <;> exact ⟨_, _, rfl, by decide, by decide⟩
  | @num _ n =>
      obtain ⟨c, tail, hspell, hc⟩ := toList_toString_eq_cons n
      exact ⟨c, tail, hspell, isSpace_of_sign hc⟩
  | real hhead hc => exact ⟨_, _, hhead, isSpace_of_sign hc⟩
  | str s => exact ⟨_, _, rfl, by decide, by decide⟩
  | arr h => exact ⟨_, _, rfl, by decide, by decide⟩
  | obj h => exact ⟨_, _, rfl, by decide, by decide⟩

/-- The values of a list do not start with a closing bracket. -/
theorem spellValues_eq_cons {depth : ℕ} {v : Json} (h : Spellable depth v) (values : List Json) :
    ∃ c tail, spellValues (v :: values) = c :: tail ∧ isSpace c = false ∧ c ≠ ']' := by
  obtain ⟨c, tail, hspell, hc⟩ := spell_eq_cons h
  cases values with
  | nil => exact ⟨c, tail ++ [']'], by rw [spellValues, hspell]; rfl, hc⟩
  | cons w values =>
      exact ⟨c, tail ++ ',' :: spellValues (w :: values), by rw [spellValues, hspell]; rfl, hc⟩

/-- The members of an object start with a quote. -/
theorem spellMembers_eq_cons (m : String × Json) (entries : List (String × Json)) :
    ∃ tail, spellMembers (m :: entries) = '"' :: tail := by
  cases entries with
  | nil => exact ⟨_, rfl⟩
  | cons w entries => exact ⟨_, rfl⟩

section Steps

variable {fuel depth : ℕ} {v : Json} {text' : List Char}

/-- The last element of an array. -/
theorem elements_last (hv : value fuel depth text = some (v, ']' :: rest)) :
    elements (fuel + 1) depth text = some ([v], rest) := by
  rw [elements.eq_def]
  simp only [hv]
  rw [skip_cons (by decide)]
  rfl

/-- An element that is not the last one. -/
theorem elements_more {values : List Json} (hv : value fuel depth text = some (v, ',' :: text'))
    (hrest : elements fuel depth text' = some (values, rest)) :
    elements (fuel + 1) depth text = some (v :: values, rest) := by
  rw [elements.eq_def]
  simp only [hv]
  rw [skip_cons (by decide)]
  simp only [if_true, hrest]
  rfl

variable {s : String} {entries : List (String × Json)}

/-- A string is not skipped. -/
theorem skip_spellString :
    skip (spellString s ++ text) = '"' :: (s.toList.flatMap encodeChar ++ '"' :: text) := by
  rw [spellString, List.cons_append, List.append_assoc, List.singleton_append,
    skip_cons (by decide)]

/-- The last member of an object. -/
theorem members_last (hv : value fuel depth text = some (v, '}' :: rest)) :
    members (fuel + 1) depth (spellString s ++ ':' :: text) = some ([(s, v)], rest) := by
  rw [members.eq_def]
  simp only [skip_spellString, if_true]
  rw [unquote_spellString]
  simp only
  rw [skip_cons (by decide)]
  simp only [if_true, hv]
  rw [skip_cons (by decide)]
  simp only [Char.reduceEq, if_true, if_false, String.ofList_toList]

/-- A member that is not the last one. -/
theorem members_more (hv : value fuel depth text = some (v, ',' :: text'))
    (hrest : members fuel depth text' = some (entries, rest)) :
    members (fuel + 1) depth (spellString s ++ ':' :: text) = some ((s, v) :: entries, rest) := by
  rw [members.eq_def]
  simp only [skip_spellString, if_true]
  rw [unquote_spellString]
  simp only
  rw [skip_cons (by decide)]
  simp only [if_true, hv]
  rw [skip_cons (by decide)]
  simp only [if_true, hrest, Option.map_some, String.ofList_toList]

end Steps

/-- The values of a list are read, where each of them is. -/
theorem elements_spellValues {depth : ℕ} {values : List Json} (hne : values ≠ [])
    (h : ∀ v ∈ values, Reads depth v) {fuel : ℕ} (hfuel : (spellValues values).length ≤ fuel)
    (rest : List Char) :
    elements fuel depth (spellValues values ++ rest) = some (values, rest) := by
  induction values generalizing fuel with
  | nil => exact absurd rfl hne
  | cons v values ih =>
      have hv : Reads depth v := h v List.mem_cons_self
      cases values with
      | nil =>
          rw [spellValues, List.length_append, List.length_singleton] at hfuel
          obtain ⟨fuel, rfl⟩ : ∃ n, fuel = n + 1 := ⟨fuel - 1, by omega⟩
          rw [spellValues, List.append_assoc, List.singleton_append]
          exact elements_last (hv fuel _ (by omega) (ends_cons (Or.inr (Or.inl rfl))))
      | cons w values =>
          rw [spellValues, List.length_append, List.length_cons] at hfuel
          obtain ⟨fuel, rfl⟩ : ∃ n, fuel = n + 1 := ⟨fuel - 1, by omega⟩
          rw [spellValues, List.append_assoc, List.cons_append]
          refine elements_more (hv fuel _ (by omega) (ends_cons (Or.inl rfl))) ?_
          exact ih (List.cons_ne_nil _ _) (fun u hu => h u (List.mem_cons_of_mem v hu)) (by omega)

/-- The members of an object are read, where each of their values is. -/
theorem members_spellMembers {depth : ℕ} {entries : List (String × Json)} (hne : entries ≠ [])
    (h : ∀ m ∈ entries, Reads depth m.2) {fuel : ℕ}
    (hfuel : (spellMembers entries).length ≤ fuel) (rest : List Char) :
    members fuel depth (spellMembers entries ++ rest) = some (entries, rest) := by
  induction entries generalizing fuel with
  | nil => exact absurd rfl hne
  | cons m entries ih =>
      obtain ⟨key, v⟩ := m
      have hv : Reads depth v := h (key, v) List.mem_cons_self
      cases entries with
      | nil =>
          rw [spellMembers, List.length_append, List.length_cons, List.length_append] at hfuel
          obtain ⟨fuel, rfl⟩ : ∃ n, fuel = n + 1 := ⟨fuel - 1, by omega⟩
          rw [spellMembers, List.append_assoc, List.cons_append, List.append_assoc,
            List.singleton_append]
          exact members_last (hv fuel _ (by omega) (ends_cons (Or.inr (Or.inr rfl))))
      | cons w entries =>
          rw [spellMembers, List.length_append, List.length_cons, List.length_append,
            List.length_cons] at hfuel
          obtain ⟨fuel, rfl⟩ : ∃ n, fuel = n + 1 := ⟨fuel - 1, by omega⟩
          rw [spellMembers, List.append_assoc, List.cons_append, List.append_assoc,
            List.cons_append]
          refine members_more (hv fuel _ (by omega) (ends_cons (Or.inl rfl))) ?_
          exact ih (List.cons_ne_nil _ _)
            (fun u hu => h u (List.mem_cons_of_mem (key, v) hu)) (by omega)

/-- A value that starts like a number is one. -/
theorem value_eq_number {fuel depth : ℕ} {tail : List Char} (hc : c = '-' ∨ c.isDigit) :
    value (fuel + 1) depth (c :: tail) = number (c :: tail) := by
  have hquote : c ≠ '"' ∧ c ≠ '{' ∧ c ≠ '[' := by
    rcases hc with rfl | hc
    · decide
    · refine ⟨?_, ?_, ?_⟩ <;> rintro rfl <;> exact absurd hc (by decide)
  rw [value.eq_def]
  simp only
  rw [skip_cons (isSpace_of_sign hc).1]
  simp only [hquote.1, hquote.2.1, hquote.2.2, if_false]
  rw [if_pos hc]

/-- **Reading after writing**, value by value. -/
theorem value_spell {depth : ℕ} {v : Json} (h : Spellable depth v) : Reads depth v := by
  induction h with
  | null =>
      intro fuel rest hfuel hrest
      obtain ⟨fuel, rfl⟩ : ∃ n, fuel = n + 1 := ⟨fuel - 1, by simp [spell] at hfuel; omega⟩
      rw [value.eq_def]
      rfl
  | bool b =>
      intro fuel rest hfuel hrest
      cases b with
      | false =>
          obtain ⟨fuel, rfl⟩ : ∃ n, fuel = n + 1 := ⟨fuel - 1, by simp [spell] at hfuel; omega⟩
          rw [value.eq_def]
          rfl
      | true =>
          obtain ⟨fuel, rfl⟩ : ∃ n, fuel = n + 1 := ⟨fuel - 1, by simp [spell] at hfuel; omega⟩
          rw [value.eq_def]
          rfl
  | @num depth n hmin hmax =>
      intro fuel rest hfuel hrest
      -- a number starts with a sign or a digit, and no other value does
      obtain ⟨c, tail, hspell, hc⟩ := toList_toString_eq_cons n
      have hread : number (c :: (tail ++ rest)) = some (.num n, rest) := by
        rw [← List.cons_append, ← hspell]
        exact number_spell hmin hmax hrest
      rw [spell, hspell, List.length_cons] at hfuel
      obtain ⟨fuel, rfl⟩ : ∃ m, fuel = m + 1 := ⟨fuel - 1, by omega⟩
      rw [spell, hspell, List.cons_append]
      rw [value_eq_number hc, hread]
  | @real depth literal c tail hhead hc hread =>
      intro fuel rest hfuel hrest
      have hread := hread rest hrest
      rw [spell, hhead, List.length_cons] at hfuel
      obtain ⟨fuel, rfl⟩ : ∃ m, fuel = m + 1 := ⟨fuel - 1, by omega⟩
      rw [hhead, List.cons_append] at hread
      rw [spell, hhead, List.cons_append]
      rw [value_eq_number hc, hread]
  | str s =>
      intro fuel rest hfuel hrest
      rw [spell, spellString, List.length_cons] at hfuel
      obtain ⟨fuel, rfl⟩ : ∃ n, fuel = n + 1 := ⟨fuel - 1, by omega⟩
      rw [value.eq_def, spell]
      simp only [skip_spellString, if_true]
      rw [unquote_spellString]
      simp only [Option.map_some, String.ofList_toList]
  | @arr depth values h ih =>
      intro fuel rest hfuel hrest
      rw [spell, List.length_cons] at hfuel
      obtain ⟨fuel, rfl⟩ : ∃ n, fuel = n + 1 := ⟨fuel - 1, by omega⟩
      rw [value.eq_def, spell]
      simp only [List.cons_append]
      rw [skip_cons (by decide)]
      simp only [Char.reduceEq, if_true, if_false]
      cases values with
      | nil => rfl
      | cons v values =>
          have hlength : (spellValues (v :: values)).length ≤ fuel := by omega
          have helements := elements_spellValues (List.cons_ne_nil v values) ih hlength rest
          -- the first character of an element is no closing bracket
          obtain ⟨c, tail, hvalues, hspace, hc⟩ :=
            spellValues_eq_cons (h v List.mem_cons_self) values
          rw [hvalues, List.cons_append] at helements ⊢
          rw [skip_cons hspace]
          simp only [if_neg hc, helements, Option.map_some]
  | @obj depth entries h ih =>
      intro fuel rest hfuel hrest
      rw [spell, List.length_cons] at hfuel
      obtain ⟨fuel, rfl⟩ : ∃ n, fuel = n + 1 := ⟨fuel - 1, by omega⟩
      rw [value.eq_def, spell]
      simp only [List.cons_append]
      rw [skip_cons (by decide)]
      simp only [Char.reduceEq, if_true, if_false]
      cases entries with
      | nil => rfl
      | cons m entries =>
          have hlength : (spellMembers (m :: entries)).length ≤ fuel := by omega
          have hmembers := members_spellMembers (List.cons_ne_nil m entries) ih hlength rest
          -- a key starts with its quotation mark, which is no closing brace
          obtain ⟨tail, hquote⟩ := spellMembers_eq_cons m entries
          rw [hquote, List.cons_append] at hmembers ⊢
          rw [skip_cons (by decide)]
          simp only [Char.reduceEq, if_false, hmembers, Option.map_some]

/-- **Reading after writing.** -/
theorem read_spell {v : Json} (h : Spellable 512 v) : read (spell v) = some v := by
  have hend : Ends [] := by
    intro c hc
    cases hc
  have hvalue : value (spell v).length 512 (spell v) = some (v, []) := by
    have hread := value_spell h (spell v).length [] le_rfl hend
    rwa [List.append_nil] at hread
  rw [read, hvalue]
  rfl

/-- A text stands for one document. -/
theorem spell_injective {v w : Json} (hv : Spellable 512 v) (hw : Spellable 512 w)
    (h : spell v = spell w) : v = w := by
  have hread := read_spell hv
  rw [h, read_spell hw] at hread
  exact (Option.some.inj hread).symm

end Json

end HorizonNewDawn

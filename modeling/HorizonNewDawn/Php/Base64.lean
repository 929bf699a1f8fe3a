import Mathlib.Data.List.Basic
import Mathlib.Tactic.Common

/-! # Base64

`base64_encode` and the strict `base64_decode`, and the variant for URLs the source writes its
cursors in: two other letters and no padding. Decoding an encoded list of bytes gives the bytes
back, with and without the padding. -/

namespace HorizonNewDawn

namespace Php

/-! ## Sextets -/

/-- The 64 letters. -/
def base64Alphabet : List Char :=
  "ABCDEFGHIJKLMNOPQRSTUVWXYZabcdefghijklmnopqrstuvwxyz0123456789+/".toList

/-- The letter of a sextet. -/
def sextetChar (n : ℕ) : Char := base64Alphabet.getD n '='

/-- The sextet of a letter. -/
def charSextet (c : Char) : Option ℕ := base64Alphabet.idxOf? c

/-- A sextet is read from its character. -/
theorem charSextet_sextetChar {n : ℕ} (hn : n < 64) : charSextet (sextetChar n) = some n := by
  have hall : ∀ n < 64, charSextet (sextetChar n) = some n := by decide +kernel
  exact hall n hn

/-- No letter is a padding sign or white space. -/
theorem sextetChar_ne {n : ℕ} (hn : n < 64) : sextetChar n ≠ '=' ∧ (sextetChar n).toNat ∉ [9, 10, 13, 32] := by
  have hall : ∀ n < 64, sextetChar n ≠ '=' ∧ (sextetChar n).toNat ∉ [9, 10, 13, 32] := by
    decide +kernel
  exact hall n hn

/-- Cut bytes into sextets: three bytes into four, the rest filled up with zero bits. -/
def sextets : List UInt8 → List ℕ
  | [] => []
  | [x] => [x.toNat / 4, x.toNat % 4 * 16]
  | [x, y] => [x.toNat / 4, x.toNat % 4 * 16 + y.toNat / 16, y.toNat % 16 * 4]
  | x :: y :: z :: bytes =>
      x.toNat / 4 :: (x.toNat % 4 * 16 + y.toNat / 16) :: (y.toNat % 16 * 4 + z.toNat / 64) ::
        z.toNat % 64 :: sextets bytes

/-- Put sextets together to bytes; bits that do not fill a byte are dropped. -/
def joinSextets : List ℕ → List UInt8
  | a :: b :: c :: d :: rest =>
      UInt8.ofNat (a * 4 + b / 16) :: UInt8.ofNat (b % 16 * 16 + c / 4) ::
        UInt8.ofNat (c % 4 * 64 + d) :: joinSextets rest
  | [a, b, c] => [UInt8.ofNat (a * 4 + b / 16), UInt8.ofNat (b % 16 * 16 + c / 4)]
  | [a, b] => [UInt8.ofNat (a * 4 + b / 16)]
  | _ => []

/-- A byte is read from its number. -/
theorem ofNat_of_eq_toNat {n : ℕ} {x : UInt8} (h : n = x.toNat) : UInt8.ofNat n = x := by
  rw [h, UInt8.ofNat_toNat]

/-- The bytes come back. -/
theorem joinSextets_sextets (bytes : List UInt8) : joinSextets (sextets bytes) = bytes := by
  fun_induction sextets bytes with
  | case1 => rfl
  | case2 x =>
      have hx := x.toNat_lt
      rw [joinSextets, ofNat_of_eq_toNat (x := x) (by omega)]
  | case3 x y =>
      have hx := x.toNat_lt
      have hy := y.toNat_lt
      rw [joinSextets, ofNat_of_eq_toNat (x := x) (by omega),
        ofNat_of_eq_toNat (x := y) (by omega)]
  | case4 x y z bytes ih =>
      have hx := x.toNat_lt
      have hy := y.toNat_lt
      have hz := z.toNat_lt
      rw [joinSextets, ih, ofNat_of_eq_toNat (x := x) (by omega),
        ofNat_of_eq_toNat (x := y) (by omega), ofNat_of_eq_toNat (x := z) (by omega)]

/-- The sextets are less than 64. -/
theorem lt_of_mem_sextets {bytes : List UInt8} {n : ℕ} (h : n ∈ sextets bytes) : n < 64 := by
  fun_induction sextets bytes with
  | case1 => cases h
  | case2 x =>
      have hx := x.toNat_lt
      simp only [List.mem_cons, List.not_mem_nil, or_false] at h
      omega
  | case3 x y =>
      have hx := x.toNat_lt
      have hy := y.toNat_lt
      simp only [List.mem_cons, List.not_mem_nil, or_false] at h
      omega
  | case4 x y z bytes ih =>
      have hx := x.toNat_lt
      have hy := y.toNat_lt
      have hz := z.toNat_lt
      simp only [List.mem_cons] at h
      rcases h with h | h | h | h | h
      · omega
      · omega
      · omega
      · omega
      · exact ih h

/-- No list of bytes leaves a single sextet. -/
theorem length_sextets_mod (bytes : List UInt8) : (sextets bytes).length % 4 ≠ 1 := by
  fun_induction sextets bytes with
  | case1 => decide
  | case2 x => exact (by decide : 2 % 4 ≠ 1)
  | case3 x y => exact (by decide : 3 % 4 ≠ 1)
  | case4 x y z bytes ih =>
      simp only [List.length_cons]
      omega

/-! ## Texts -/

/-- `base64_encode` -/
def base64Encode (bytes : List UInt8) : List Char :=
  (sextets bytes).map sextetChar ++ List.replicate ((4 - (sextets bytes).length % 4) % 4) '='

/-- The sextets a text spells and the number of its padding signs: white space is skipped, any other
sign that is not a letter and any letter after a padding sign is an error. -/
def readSextets : List Char → ℕ → Option (List ℕ × ℕ)
  | [], padding => some ([], padding)
  | c :: text, padding =>
      if c = '=' then readSextets text (padding + 1)
      else if c.toNat ∈ [9, 10, 13, 32] then readSextets text padding
      else
        match charSextet c with
        | some n =>
            if padding = 0 then (readSextets text padding).map fun r => (n :: r.1, r.2) else none
        | none => none

/-- `base64_decode` in strict mode -/
def base64Decode (text : List Char) : Option (List UInt8) :=
  match readSextets text 0 with
  | none => none
  | some (ns, padding) =>
      if ns.length % 4 = 1 then none
      else if 0 < padding ∧ (2 < padding ∨ (ns.length + padding) % 4 ≠ 0) then none
      else some (joinSextets ns)

/-- Padding is counted. -/
theorem readSextets_replicate (n padding : ℕ) :
    readSextets (List.replicate n '=') padding = some ([], padding + n) := by
  induction n generalizing padding with
  | zero => rfl
  | succ n ih =>
      rw [List.replicate_succ, readSextets, if_pos rfl, ih]
      congr 2
      omega

/-- Sextets with padding are read again. -/
theorem readSextets_map {ns : List ℕ} (hns : ∀ n ∈ ns, n < 64) (padding : ℕ) :
    readSextets (ns.map sextetChar ++ List.replicate padding '=') 0 = some (ns, padding) := by
  induction ns with
  | nil =>
      rw [List.map_nil, List.nil_append, readSextets_replicate, Nat.zero_add]
  | cons n ns ih =>
      have hn : n < 64 := hns n List.mem_cons_self
      rw [List.map_cons, List.cons_append, readSextets, if_neg (sextetChar_ne hn).1,
        if_neg (sextetChar_ne hn).2, charSextet_sextetChar hn]
      simp only [if_pos]
      rw [ih fun m hm => hns m (List.mem_cons_of_mem n hm)]
      rfl

/-- Letters with the right padding, or with none, are decoded. -/
theorem base64Decode_map (bytes : List UInt8) {padding : ℕ}
    (hpadding : padding = 0 ∨ padding ≤ 2 ∧ ((sextets bytes).length + padding) % 4 = 0) :
    base64Decode ((sextets bytes).map sextetChar ++ List.replicate padding '=') = some bytes := by
  have hone := length_sextets_mod bytes
  rw [base64Decode, readSextets_map fun n hn => lt_of_mem_sextets hn]
  simp only
  rw [if_neg hone, if_neg (by omega), joinSextets_sextets]

/-- **Decoding after encoding.** -/
theorem base64Decode_base64Encode (bytes : List UInt8) :
    base64Decode (base64Encode bytes) = some bytes := by
  have hone := length_sextets_mod bytes
  exact base64Decode_map bytes (by omega)

/-! ## The variant for URLs -/

/-- `strtr` from the letters `+/` to `-_` -/
def toUrl (c : Char) : Char := if c = '+' then '-' else if c = '/' then '_' else c

/-- `strtr` from the letters `-_` to `+/` -/
def ofUrl (c : Char) : Char := if c = '-' then '+' else if c = '_' then '/' else c

/-- `rtrim` of padding signs -/
def rtrimPadding (text : List Char) : List Char := (text.reverse.dropWhile (· = '=')).reverse

/-- `base64UrlEncode`: no padding, and letters that stand for themselves in a URL. -/
def base64UrlEncode (bytes : List UInt8) : List Char :=
  rtrimPadding ((base64Encode bytes).map toUrl)

/-- The URL alphabet is turned back, and has neither padding nor dots. -/
theorem ofUrl_toUrl_sextetChar {n : ℕ} (hn : n < 64) :
    ofUrl (toUrl (sextetChar n)) = sextetChar n ∧ toUrl (sextetChar n) ≠ '=' ∧
      toUrl (sextetChar n) ≠ '.' := by
  have hall : ∀ n < 64, ofUrl (toUrl (sextetChar n)) = sextetChar n ∧
      toUrl (sextetChar n) ≠ '=' ∧ toUrl (sextetChar n) ≠ '.' := by decide +kernel
  exact hall n hn

/-- Padding is trimmed. -/
theorem rtrimPadding_append_replicate {text : List Char} (h : ∀ c ∈ text, c ≠ '=') (n : ℕ) :
    rtrimPadding (text ++ List.replicate n '=') = text := by
  rw [rtrimPadding, List.reverse_append, List.reverse_replicate,
    List.dropWhile_append_of_pos fun c hc => decide_eq_true (List.eq_of_mem_replicate hc)]
  cases htext : text.reverse with
  | nil =>
      rw [List.reverse_eq_nil_iff.mp htext]
      rfl
  | cons c rest =>
      have hc : c ≠ '=' := h c (by rw [← List.mem_reverse, htext]; exact List.mem_cons_self)
      rw [List.dropWhile_cons_of_neg (by simpa using hc), ← htext, List.reverse_reverse]

/-- An encoded text is made of the characters of its sextets. -/
theorem base64UrlEncode_eq (bytes : List UInt8) :
    base64UrlEncode bytes = (sextets bytes).map fun n => toUrl (sextetChar n) := by
  have hpad : toUrl '=' = '=' := rfl
  rw [base64UrlEncode, base64Encode, List.map_append, List.map_replicate, hpad, List.map_map,
    rtrimPadding_append_replicate]
  · rfl
  · intro c hc
    obtain ⟨n, hn, rfl⟩ := List.mem_map.mp hc
    exact (ofUrl_toUrl_sextetChar (lt_of_mem_sextets hn)).2.1

/-- The encoded text has only letters. -/
theorem ne_of_mem_base64UrlEncode {bytes : List UInt8} {c : Char}
    (h : c ∈ base64UrlEncode bytes) : c ≠ '.' := by
  rw [base64UrlEncode_eq] at h
  obtain ⟨n, hn, rfl⟩ := List.mem_map.mp h
  exact (ofUrl_toUrl_sextetChar (lt_of_mem_sextets hn)).2.2

/-- **Decoding a text for URLs**, with or without the padding that was left out. -/
theorem base64Decode_base64UrlEncode (bytes : List UInt8) {padding : ℕ}
    (hpadding : padding = 0 ∨
      padding ≤ 2 ∧ ((base64UrlEncode bytes).length + padding) % 4 = 0) :
    base64Decode ((base64UrlEncode bytes ++ List.replicate padding '=').map ofUrl) =
      some bytes := by
  have hpad : ofUrl '=' = '=' := rfl
  have hletters : ((sextets bytes).map fun n => toUrl (sextetChar n)).map ofUrl =
      (sextets bytes).map sextetChar := by
    rw [List.map_map]
    exact List.map_congr_left fun n hn => (ofUrl_toUrl_sextetChar (lt_of_mem_sextets hn)).1
  rw [base64UrlEncode_eq, List.length_map] at hpadding
  rw [base64UrlEncode_eq, List.map_append, List.map_replicate, hpad, hletters,
    base64Decode_map bytes hpadding]

end Php

end HorizonNewDawn

import HorizonNewDawn.Php.JsonText
import Mathlib

/-! # Indented JSON texts

`json_encode` with `JSON_PRETTY_PRINT` and `JSON_UNESCAPED_SLASHES` writes a document over several lines
(`pretty`). It is read back from them (`read_pretty`), also behind the line feed a file ends with. What
is read of a text whose numbers are integers can be written again (`spellable_of_read`). -/

namespace HorizonNewDawn

namespace Json

/-! ## Writing -/

/-- One character of a string, slashes as they are. -/
def plainChar (c : Char) : List Char := if c = '/' then ['/'] else encodeChar c

/-- A string in quotes. -/
def plainString (s : String) : List Char := '"' :: (s.toList.flatMap plainChar ++ ['"'])

/-- A new line, four spaces further in for each level. -/
def newline (level : ℕ) : List Char := '\n' :: List.replicate (4 * level) ' '

mutual

/-- The text of a document as `json_encode` writes it over several lines. -/
def pretty (level : ℕ) : Json → List Char
  | .null => ['n', 'u', 'l', 'l']
  | .bool true => ['t', 'r', 'u', 'e']
  | .bool false => ['f', 'a', 'l', 's', 'e']
  | .num n => (toString n).toList
  | .real literal => literal.toList
  | .str s => plainString s
  | .arr values => '[' :: prettyValues level values
  | .obj members => '{' :: prettyMembers level members

/-- The values of a list, up to the closing bracket. -/
def prettyValues (level : ℕ) : List Json → List Char
  | [] => [']']
  | [v] => newline (level + 1) ++ (pretty (level + 1) v ++ (newline level ++ [']']))
  | v :: w :: values =>
      newline (level + 1) ++ (pretty (level + 1) v ++ ',' :: prettyValues level (w :: values))

/-- The members of an object, up to the closing brace. -/
def prettyMembers (level : ℕ) : List (String × Json) → List Char
  | [] => ['}']
  | [(key, v)] =>
      newline (level + 1) ++ (plainString key ++ ':' :: ' ' ::
        (pretty (level + 1) v ++ (newline level ++ ['}'])))
  | (key, v) :: m :: members =>
      newline (level + 1) ++ (plainString key ++ ':' :: ' ' ::
        (pretty (level + 1) v ++ ',' :: prettyMembers level (m :: members)))

end

/-! ## White space -/

variable {c : Char} {text rest space : List Char} {level fuel depth : ℕ} {v : Json}

/-- White space is skipped. -/
theorem skip_append (hspace : ∀ c ∈ space, isSpace c = true) : skip (space ++ text) = skip text := by
  rw [skip, List.dropWhile_append_of_pos hspace]
  rfl

/-- A line break with its indentation is white space. -/
theorem isSpace_newline : ∀ c ∈ newline level, isSpace c = true := by
  intro c hc
  rw [newline, List.mem_cons] at hc
  rcases hc with rfl | hc
  · decide
  · rw [List.eq_of_mem_replicate hc]
    decide

/-- It ends a number. -/
theorem ends_newline : Ends (newline level ++ rest) := by
  rintro c ⟨⟩
  decide

/-- White space in front of a value is skipped. -/
theorem value_append (hspace : ∀ c ∈ space, isSpace c = true) :
    value fuel depth (space ++ text) = value fuel depth text := by
  cases fuel with
  | zero => rw [value.eq_def, value.eq_def]
  | succ fuel =>
      rw [value.eq_def, value.eq_def (fuel + 1) depth text]
      simp only [skip_append hspace]

/-- White space in front of the members of an object is skipped. -/
theorem members_append (hspace : ∀ c ∈ space, isSpace c = true) :
    members fuel depth (space ++ text) = members fuel depth text := by
  cases fuel with
  | zero => rw [members.eq_def, members.eq_def]
  | succ fuel =>
      rw [members.eq_def, members.eq_def (fuel + 1) depth text]
      simp only [skip_append hspace]

/-- White space in front of the values of a list is skipped. -/
theorem elements_append (hspace : ∀ c ∈ space, isSpace c = true) :
    elements fuel depth (space ++ text) = elements fuel depth text := by
  cases fuel with
  | zero => rw [elements.eq_def, elements.eq_def]
  | succ fuel =>
      rw [elements.eq_def, elements.eq_def (fuel + 1) depth text]
      simp only [value_append hspace]

/-! ## Strings -/

/-- A character that is written is read again. -/
theorem unquote_plainChar : unquote (plainChar c ++ text) = (unquote text).map (consChar c) := by
  rw [plainChar]
  split
  · rename_i hslash
    rw [hslash, List.singleton_append, unquote.eq_def]
    simp only [Char.reduceEq, if_false]
    rfl
  · exact unquote_encodeChar

/-- A string is read as it was written. -/
theorem unquote_plainString (s : List Char) :
    unquote (s.flatMap plainChar ++ '"' :: rest) = some (s, rest) := by
  induction s with
  | nil =>
      rw [List.flatMap_nil, List.nil_append, unquote.eq_def]
      exact if_pos rfl
  | cons c s ih =>
      rw [List.flatMap_cons, List.append_assoc, unquote_plainChar, ih]
      rfl

/-- A string is not skipped. -/
theorem skip_plainString {s : String} :
    skip (plainString s ++ text) = '"' :: (s.toList.flatMap plainChar ++ '"' :: text) := by
  rw [plainString, List.cons_append, List.append_assoc, List.singleton_append,
    skip_cons (by decide)]

/-! ## Reading after writing -/

/-- A value is read from the lines that start with it. -/
def ReadsPretty (depth : ℕ) (v : Json) : Prop :=
  ∀ level fuel rest, (pretty level v).length ≤ fuel → Ends rest →
    value fuel depth (pretty level v ++ rest) = some (v, rest)

/-- A document does not start with white space or a closing bracket. -/
theorem pretty_eq_cons (h : Spellable depth v) (level : ℕ) :
    ∃ c tail, pretty level v = c :: tail ∧ isSpace c = false ∧ c ≠ ']' := by
  cases h with
  | null => exact ⟨_, _, rfl, by decide, by decide⟩
  | bool b => cases b <;> exact ⟨_, _, rfl, by decide, by decide⟩
  | @num _ n =>
      obtain ⟨c, tail, hspell, hc⟩ := toList_toString_eq_cons n
      exact ⟨c, tail, hspell, isSpace_of_sign hc⟩
  | real hhead hc => exact ⟨_, _, hhead, isSpace_of_sign hc⟩
  | str s => exact ⟨_, _, rfl, by decide, by decide⟩
  | arr h => exact ⟨_, _, rfl, by decide, by decide⟩
  | obj h => exact ⟨_, _, rfl, by decide, by decide⟩

/-- The values of a list do not start with a closing bracket. -/
theorem prettyValues_eq_cons (h : Spellable depth v) (level : ℕ) (values : List Json) :
    ∃ c tail, prettyValues level (v :: values) = newline (level + 1) ++ c :: tail ∧
      isSpace c = false ∧ c ≠ ']' := by
  obtain ⟨c, tail, hpretty, hc⟩ := pretty_eq_cons h (level + 1)
  cases values with
  | nil => exact ⟨c, tail ++ (newline level ++ [']']), by rw [prettyValues, hpretty]; rfl, hc⟩
  | cons w values =>
      exact ⟨c, tail ++ ',' :: prettyValues level (w :: values), by rw [prettyValues, hpretty]; rfl, hc⟩

/-- The members of an object start with a quote. -/
theorem prettyMembers_eq_cons (level : ℕ) (m : String × Json) (entries : List (String × Json)) :
    ∃ tail, prettyMembers level (m :: entries) = newline (level + 1) ++ '"' :: tail := by
  cases entries with
  | nil => exact ⟨_, rfl⟩
  | cons w entries => exact ⟨_, rfl⟩

section Steps

variable {text' : List Char}

/-- The last element, with white space behind it. -/
theorem elements_last_of_skip (hv : value fuel depth text = some (v, text'))
    (hend : skip text' = ']' :: rest) : elements (fuel + 1) depth text = some ([v], rest) := by
  rw [elements.eq_def]
  simp only [hv, hend]
  rfl

variable {s : String} {entries : List (String × Json)}

/-- The last member, with white space behind it. -/
theorem members_last_of_skip (hv : value fuel depth text = some (v, text'))
    (hend : skip text' = '}' :: rest) :
    members (fuel + 1) depth (plainString s ++ ':' :: text) = some ([(s, v)], rest) := by
  rw [members.eq_def]
  simp only [skip_plainString, if_true]
  rw [unquote_plainString]
  simp only
  rw [skip_cons (by decide)]
  simp only [if_true, hv, hend]
  simp only [Char.reduceEq, if_false, String.ofList_toList]

/-- A member that is not the last one. -/
theorem members_more_plain (hv : value fuel depth text = some (v, ',' :: text'))
    (hrest : members fuel depth text' = some (entries, rest)) :
    members (fuel + 1) depth (plainString s ++ ':' :: text) = some ((s, v) :: entries, rest) := by
  rw [members.eq_def]
  simp only [skip_plainString, if_true]
  rw [unquote_plainString]
  simp only
  rw [skip_cons (by decide)]
  simp only [if_true, hv]
  rw [skip_cons (by decide)]
  simp only [if_true, hrest, Option.map_some, String.ofList_toList]

end Steps

/-- The values of a list are read, where each of them is. -/
theorem elements_prettyValues {values : List Json} (hne : values ≠ [])
    (h : ∀ v ∈ values, ReadsPretty depth v) (level : ℕ) {fuel : ℕ}
    (hfuel : (prettyValues level values).length ≤ fuel) (rest : List Char) :
    elements fuel depth (prettyValues level values ++ rest) = some (values, rest) := by
  induction values generalizing fuel with
  | nil => exact absurd rfl hne
  | cons v values ih =>
      have hv : ReadsPretty depth v := h v List.mem_cons_self
      cases values with
      | nil =>
          simp only [prettyValues, List.length_append, List.length_singleton] at hfuel
          obtain ⟨fuel, rfl⟩ : ∃ n, fuel = n + 1 := ⟨fuel - 1, by omega⟩
          simp only [prettyValues, List.append_assoc, List.singleton_append]
          rw [elements_append isSpace_newline]
          apply elements_last_of_skip (hv (level + 1) fuel _ (by omega) ends_newline)
          rw [skip_append isSpace_newline, skip_cons (by decide)]
      | cons w values =>
          simp only [prettyValues, List.length_append, List.length_cons] at hfuel
          obtain ⟨fuel, rfl⟩ : ∃ n, fuel = n + 1 := ⟨fuel - 1, by omega⟩
          rw [prettyValues, List.append_assoc, List.append_assoc, List.cons_append,
            elements_append isSpace_newline]
          apply elements_more (hv (level + 1) fuel _ (by omega) (ends_cons (Or.inl rfl)))
          exact ih (List.cons_ne_nil _ _) (fun u hu => h u (List.mem_cons_of_mem v hu)) (by omega)

/-- The members of an object are read, where each of their values is. -/
theorem members_prettyMembers {entries : List (String × Json)} (hne : entries ≠ [])
    (h : ∀ m ∈ entries, ReadsPretty depth m.2) (level : ℕ) {fuel : ℕ}
    (hfuel : (prettyMembers level entries).length ≤ fuel) (rest : List Char) :
    members fuel depth (prettyMembers level entries ++ rest) = some (entries, rest) := by
  have hblank : ∀ c ∈ [' '], isSpace c = true := by
    intro c hc
    rw [List.mem_singleton.mp hc]
    decide
  induction entries generalizing fuel with
  | nil => exact absurd rfl hne
  | cons m entries ih =>
      obtain ⟨key, v⟩ := m
      have hv : ReadsPretty depth v := h (key, v) List.mem_cons_self
      cases entries with
      | nil =>
          simp only [prettyMembers, List.length_append, List.length_cons] at hfuel
          obtain ⟨fuel, rfl⟩ : ∃ n, fuel = n + 1 := ⟨fuel - 1, by omega⟩
          simp only [prettyMembers, List.append_assoc, List.cons_append, List.nil_append]
          rw [members_append isSpace_newline]
          apply members_last_of_skip
          · have hvalue := hv (level + 1) fuel (newline level ++ '}' :: rest) (by omega) ends_newline
            rwa [← value_append hblank] at hvalue
          · rw [skip_append isSpace_newline, skip_cons (by decide)]
      | cons w entries =>
          simp only [prettyMembers, List.length_append, List.length_cons] at hfuel
          obtain ⟨fuel, rfl⟩ : ∃ n, fuel = n + 1 := ⟨fuel - 1, by omega⟩
          simp only [prettyMembers, List.append_assoc, List.cons_append]
          rw [members_append isSpace_newline]
          apply members_more_plain 
          · have hvalue := hv (level + 1) fuel (',' :: (prettyMembers level (w :: entries) ++ rest))
              (by omega) (ends_cons (Or.inl rfl))
            rwa [← value_append hblank] at hvalue
          · exact ih (List.cons_ne_nil _ _)
              (fun u hu => h u (List.mem_cons_of_mem (key, v) hu)) (by omega)

/-- **Reading after writing**, value by value. -/
theorem value_pretty (h : Spellable depth v) : ReadsPretty depth v := by
  induction h with
  | null =>
      intro level fuel rest hfuel hrest
      obtain ⟨fuel, rfl⟩ : ∃ n, fuel = n + 1 := ⟨fuel - 1, by simp [pretty] at hfuel; omega⟩
      rw [value.eq_def]
      rfl
  | bool b =>
      intro level fuel rest hfuel hrest
      cases b with
      | false =>
          obtain ⟨fuel, rfl⟩ : ∃ n, fuel = n + 1 := ⟨fuel - 1, by simp [pretty] at hfuel; omega⟩
          rw [value.eq_def]
          rfl
      | true =>
          obtain ⟨fuel, rfl⟩ : ∃ n, fuel = n + 1 := ⟨fuel - 1, by simp [pretty] at hfuel; omega⟩
          rw [value.eq_def]
          rfl
  | @num depth n hmin hmax =>
      intro level fuel rest hfuel hrest
      -- numbers are written as in the compact form
      have hspellable : Spellable depth (.num n) := .num hmin hmax
      have hread := value_spell hspellable fuel rest
      rw [spell] at hread
      rw [pretty] at hfuel ⊢
      exact hread hfuel hrest
  | @real depth literal c tail hhead hc hread =>
      intro level fuel rest hfuel hrest
      have hspellable : Spellable depth (.real literal) := .real hhead hc hread
      have hvalue := value_spell hspellable fuel rest
      rw [spell] at hvalue
      rw [pretty] at hfuel ⊢
      exact hvalue hfuel hrest
  | str s =>
      intro level fuel rest hfuel hrest
      rw [pretty, plainString, List.length_cons] at hfuel
      obtain ⟨fuel, rfl⟩ : ∃ n, fuel = n + 1 := ⟨fuel - 1, by omega⟩
      rw [value.eq_def, pretty]
      simp only [skip_plainString, if_true]
      rw [unquote_plainString]
      simp only [Option.map_some, String.ofList_toList]
  | @arr depth values h ih =>
      intro level fuel rest hfuel hrest
      rw [pretty, List.length_cons] at hfuel
      obtain ⟨fuel, rfl⟩ : ∃ n, fuel = n + 1 := ⟨fuel - 1, by omega⟩
      rw [value.eq_def, pretty]
      simp only [List.cons_append]
      rw [skip_cons (by decide)]
      simp only [Char.reduceEq, if_true, if_false]
      cases values with
      | nil => rfl
      | cons v values =>
          have hlength : (prettyValues level (v :: values)).length ≤ fuel := by omega
          have helements := elements_prettyValues (List.cons_ne_nil v values) ih level hlength rest
          -- the line break after the bracket is skipped on either side
          obtain ⟨c, tail, hvalues, hspace, hc⟩ :=
            prettyValues_eq_cons (h v List.mem_cons_self) level values
          rw [hvalues, List.append_assoc, elements_append isSpace_newline, List.cons_append] at helements
          rw [hvalues, List.append_assoc, skip_append isSpace_newline, List.cons_append,
            skip_cons hspace]
          simp only [if_neg hc, helements, Option.map_some]
  | @obj depth entries h ih =>
      intro level fuel rest hfuel hrest
      rw [pretty, List.length_cons] at hfuel
      obtain ⟨fuel, rfl⟩ : ∃ n, fuel = n + 1 := ⟨fuel - 1, by omega⟩
      rw [value.eq_def, pretty]
      simp only [List.cons_append]
      rw [skip_cons (by decide)]
      simp only [Char.reduceEq, if_true, if_false]
      cases entries with
      | nil => rfl
      | cons m entries =>
          have hlength : (prettyMembers level (m :: entries)).length ≤ fuel := by omega
          have hmembers := members_prettyMembers (List.cons_ne_nil m entries) ih level hlength rest
          -- a key starts with its quotation mark, which is no closing brace
          obtain ⟨tail, hquote⟩ := prettyMembers_eq_cons level m entries
          rw [hquote, List.append_assoc, members_append isSpace_newline, List.cons_append] at hmembers
          rw [hquote, List.append_assoc, skip_append isSpace_newline, List.cons_append,
            skip_cons (by decide)]
          simp only [Char.reduceEq, if_false, hmembers, Option.map_some]

/-- **Reading after writing**, with the line feed at the end of a file. -/
theorem read_pretty (h : Spellable 512 v) : read (pretty 0 v ++ ['\n']) = some v := by
  have hend : Ends ['\n'] := by
    rintro c ⟨⟩
    decide
  rw [read, value_pretty h 0 _ ['\n'] (by simp) hend]
  rfl

/-! ## Writing after reading -/

/-- Every number of the document is an integer. -/
inductive Integral : Json → Prop
  | null : Integral .null
  | bool (b : Bool) : Integral (.bool b)
  | num {n : ℤ} (h : IsInt n) : Integral (.num n)
  | str (s : String) : Integral (.str s)
  | arr {values : List Json} (h : ∀ v ∈ values, Integral v) : Integral (.arr values)
  | obj {members : List (String × Json)} (h : ∀ m ∈ members, Integral m.2) : Integral (.obj members)

/-- An integer that is read fits into 64 bits. -/
theorem spellable_numeral {negative : Bool} {digits tail : List Char}
    (h : Integral (numeral negative digits tail)) (depth : ℕ) :
    Spellable depth (numeral negative digits tail) := by
  simp only [numeral] at h ⊢
  generalize (if negative = true then -((Nat.ofDigitChars 10 digits 0 : ℕ) : ℤ)
    else ((Nat.ofDigitChars 10 digits 0 : ℕ) : ℤ)) = n at h ⊢
  by_cases hsmall : tail = [] ∧ -9223372036854775808 ≤ n ∧ n ≤ 9223372036854775807 ∧
      ¬(negative = true ∧ n = 0)
  · rw [if_pos hsmall]
    exact .num hsmall.2.1 hsmall.2.2.1
  · rw [if_neg hsmall] at h
    cases h

/-- A number that has been read can be spelled. -/
theorem spellable_of_number (h : number text = some (v, rest)) (hv : Integral v) (depth : ℕ) :
    Spellable depth v := by
  simp only [number] at h
  generalize List.takeWhile Char.isDigit _ = digits at h
  generalize List.dropWhile Char.isDigit _ = tail at h
  split at h
  · cases h
  · split at h
    · cases h
    · split at h
      · cases h
      · cases h
        exact spellable_numeral hv depth

/-- So can a word. -/
theorem spellable_of_word (h : word text = some (v, rest)) (depth : ℕ) : Spellable depth v := by
  rw [word] at h
  split at h
  · cases h
    exact .null
  · split at h
    · cases h
      exact .bool true
    · split at h
      · cases h
        exact .bool false
      · cases h

/-- What is read at a depth can be written there. -/
theorem spellable_of_value (fuel : ℕ) :
    (∀ depth text v rest, value fuel depth text = some (v, rest) → Integral v → Spellable depth v) ∧
    (∀ depth text values rest, elements fuel depth text = some (values, rest) →
      ∀ v ∈ values, Integral v → Spellable depth v) ∧
    (∀ depth text entries rest, members fuel depth text = some (entries, rest) →
      ∀ m ∈ entries, Integral m.2 → Spellable depth m.2) := by
  induction fuel with
  | zero =>
      refine ⟨fun depth text v rest h => ?_, fun depth text values rest h => ?_,
        fun depth text entries rest h => ?_⟩
      · rw [value.eq_def] at h
        cases h
      · rw [elements.eq_def] at h
        cases h
      · rw [members.eq_def] at h
        cases h
  | succ fuel ih =>
      obtain ⟨ihvalue, ihelements, ihmembers⟩ := ih
      refine ⟨fun depth text v rest h hv => ?_, fun depth text values rest h => ?_,
        fun depth text entries rest h => ?_⟩
      · -- the branches of `value`: a string, an object, an array, a number, a word
        rw [value.eq_def] at h
        simp only at h
        split at h
        · cases h
        split at h
        · obtain ⟨r, -, hr⟩ := Option.map_eq_some_iff.mp h
          cases hr
          exact .str _
        split at h
        · split at h
          · split at h
            · cases h
              exact .obj (by simp)
            · obtain ⟨r, hr, heq⟩ := Option.map_eq_some_iff.mp h
              cases heq
              cases hv with
              | obj hv => exact .obj fun m hm => ihmembers _ _ _ _ hr m hm (hv m hm)
          · cases h
        split at h
        · split at h
          · split at h
            · cases h
              exact .arr (by simp)
            · obtain ⟨r, hr, heq⟩ := Option.map_eq_some_iff.mp h
              cases heq
              cases hv with
              | arr hv => exact .arr fun w hw => ihelements _ _ _ _ hr w hw (hv w hw)
          · cases h
        split at h
        · exact spellable_of_number h hv depth
        · exact spellable_of_word h depth
      · -- the first value, and then the end or a comma and the others
        rw [elements.eq_def] at h
        simp only at h
        split at h
        · cases h
        rename_i v text' hvalue
        have hfirst : Integral v → Spellable depth v := ihvalue _ _ _ _ hvalue
        split at h
        · cases h
        split at h
        · obtain ⟨r, hr, heq⟩ := Option.map_eq_some_iff.mp h
          cases heq
          exact List.forall_mem_cons.mpr ⟨hfirst, ihelements _ _ _ _ hr⟩
        · split at h
          · cases h
            exact List.forall_mem_cons.mpr ⟨hfirst, by simp⟩
          · cases h
      · -- a key and a colon stand before the value
        rw [members.eq_def] at h
        simp only at h
        split at h
        · cases h
        split at h
        · cases h
        split at h
        · cases h
        split at h
        · cases h
        rename_i v text' hvalue
        have hfirst : Integral v → Spellable depth v := by
          split at hvalue
          · exact ihvalue _ _ _ _ hvalue
          · cases hvalue
        split at h
        · cases h
        split at h
        · obtain ⟨r, hr, heq⟩ := Option.map_eq_some_iff.mp h
          cases heq
          exact List.forall_mem_cons.mpr ⟨hfirst, ihmembers _ _ _ _ hr⟩
        · split at h
          · cases h
            exact List.forall_mem_cons.mpr ⟨hfirst, by simp⟩
          · cases h

/-- **Writing after reading**: a document that was read can be written. -/
theorem spellable_of_read (h : read text = some v) (hv : Integral v) : Spellable 512 v := by
  rw [read] at h
  split at h
  · rename_i hvalue
    split at h
    · cases h
      exact (spellable_of_value _).1 _ _ _ _ hvalue hv
    · cases h
  · cases h

end Json

end HorizonNewDawn

import HorizonNewDawn.Collections.Assignments
import HorizonNewDawn.Program.Scan
import Mathlib.Data.Int.Notation
import Mathlib.Logic.Relation

/-! # The keys of a config file

`HorizonConfigKeys` reads the paths of a config file off its source text without parsing PHP: four
scanners share an index, and an array calls itself for the arrays in it. The scanners of white space,
strings and values always come to an end. An array does unless it comes to a closing parenthesis where
an entry is due: `value` returns there without having read anything, and `array` asks again
(`all_terminates_iff`). -/

namespace HorizonNewDawn

open Program Assignments

namespace HorizonConfigKeys

/-! ## The scanners -/

/-- A source text, one character for each byte. -/
abbrev Source : Type := List Char

variable (source : Source)

/-- `startsWith` -/
def startsWith (index : ℕ) (token : String) : Bool :=
  (source.drop index).take token.length = token.toList

/-- `strpos`, which looks for a token from an offset on. -/
def strpos (token : String) (offset : ℕ) : Option ℕ :=
  ((List.range (source.length + 1 - offset)).map (offset + ·)).find? (startsWith source · token)

/-- The end of a line. -/
def lineEnd (index : ℕ) : ℕ :=
  index + ((source.drop index).takeWhile fun c => c ≠ '\n').length

/-- The characters `skip` passes over. -/
def isBlank (c : Option Char) : Bool :=
  c ∈ [some ' ', some '\n', some '\r', some '\t']

/-- The body of the loop of `skip`. -/
def skipBody (index : ℕ) : Scan (Turn ℕ ℕ) :=
  if index < source.length then
    if isBlank source[index]? then .returned (.again (index + 1))
    else if startsWith source index "//" ∨ source[index]? = some '#' then
      .returned (.again (lineEnd source index))
    else if startsWith source index "/*" then
      match strpos source "*/" (index + 2) with
      | none => .stopped "Horizon config comment does not end"
      | some finish => .returned (.again (finish + 2))
    else .returned (.done index)
  else .returned (.done index)

/-- `skip` -/
def skip (index : ℕ) : Scan ℕ := Scan.loop (skipBody source) (source.length + 2) index

/-- The body of the loop of `string`. -/
def stringBody (quote : Option Char) (state : ℕ × List Char) :
    Scan (Turn (ℕ × List Char) (List Char × ℕ)) :=
  let (index, text) := state
  if index < source.length then
    if source[index]? = some '\\' ∧ quote = some '\'' then
      .returned (.again (index + 2, text ++ source[index + 1]?.toList))
    else if source[index]? = quote then .returned (.done (text, index + 1))
    else .returned (.again (index + 1, text ++ source[index]?.toList))
  else .stopped "Horizon config string does not end"

/-- `string`: the text between the quotes, and the index behind them. -/
def string (index : ℕ) : Scan (List Char × ℕ) :=
  Scan.loop (stringBody source source[index]?) (source.length + 2) (index + 1, [])

/-- Whether a character opens a string. -/
def isQuote (c : Option Char) : Bool := c ∈ [some '\'', some '"']

/-- The state of `value`: the index, and the parentheses and brackets that are open. -/
structure Nesting where
  index : ℕ
  paren : ℤ
  bracket : ℤ
  deriving DecidableEq

/-- The body of the loop of `value` behind the call of `skip`. -/
def valueTurn (start : ℕ) (state : Nesting) (index : ℕ) : Scan (Turn Nesting ℕ) :=
  let paren := state.paren
  let bracket := state.bracket
  if isQuote source[index]? then
    (string source index).bind fun read => .returned (.again ⟨read.2, paren, bracket⟩)
  else if source[index]? = some '(' then .returned (.again ⟨index + 1, paren + 1, bracket⟩)
  else if source[index]? = some ')' then
    if paren = 0 ∧ bracket = 0 then .returned (.done index)
    else .returned (.again ⟨index + 1, paren - 1, bracket⟩)
  else if source[index]? = some '[' then .returned (.again ⟨index + 1, paren, bracket + 1⟩)
  else if source[index]? = some ']' then
    if bracket = 0 ∧ paren = 0 then .returned (.done index)
    else .returned (.again ⟨index + 1, paren, bracket - 1⟩)
  else if source[index]? = some ',' ∧ paren = 0 ∧ bracket = 0 then .returned (.done index)
  else if index + 1 > start + 100000 then .stopped "Horizon config value is too large"
  else .returned (.again ⟨index + 1, paren, bracket⟩)

/-- The body of the loop of `value`. -/
def valueBody (start : ℕ) (state : Nesting) : Scan (Turn Nesting ℕ) :=
  if state.index < source.length then
    (skip source state.index).bind (valueTurn source start state)
  else .returned (.done state.index)

/-- `value` -/
def value (index : ℕ) : Scan ℕ :=
  Scan.loop (valueBody source index) (source.length + 2) ⟨index, 0, 0⟩

/-- `expect` -/
def expect (token : String) (index : ℕ) : Scan ℕ :=
  (skip source index).bind fun index =>
    if startsWith source index token then .returned (index + token.length)
    else .stopped "Unexpected Horizon config token"

/-! ## Arrays -/

/-- What an iteration of the loop of `array` comes to before it calls `array` itself: it closes the
array, goes on at an index, has read a value for a key, or has come to an array for a key. No key stands
for one that is a number. -/
inductive Entry
  | closed (index : ℕ)
  | next (index : ℕ)
  | assigned (key : String) (start index : ℕ)
  | nested (key : Option String) (index : ℕ)
  deriving DecidableEq

/-- `preg_match('/^\d+$/D', …)` -/
def isNumber (text : List Char) : Bool := text ≠ [] ∧ text.all Char.isDigit

/-- The iteration behind the arrow. -/
def entryValue (text : List Char) (index : ℕ) : Scan Entry :=
  (skip source index).bind fun index =>
    let key := if isNumber text then none else some (String.ofList text)
    if source[index]? = some '[' then .returned (.nested key index)
    else
      (value source index).bind fun finish =>
        match key with
        | none => .returned (.next finish)
        | some key => .returned (.assigned key index finish)

/-- The iteration from a string on. -/
def entryString (index : ℕ) : Scan Entry :=
  (string source index).bind fun read =>
    (skip source read.2).bind fun index =>
      if startsWith source index "=>" then entryValue source read.1 (index + 2)
      else .returned (.next index)

/-- An iteration of the loop of `array`. -/
def entry (index : ℕ) : Scan Entry :=
  (skip source index).bind fun index =>
    if source[index]? = some ']' then .returned (.closed (index + 1))
    else if source[index]? = some ',' then .returned (.next (index + 1))
    else if isQuote source[index]? then entryString source index
    else (value source index).bind fun index => .returned (.next index)

/-- The texts of a file under their paths. -/
abbrev Keys : Type := List (String × String)

/-- `$prefix === '' ? $text : $prefix.'.'.$text` -/
def childPath (parent text : String) : String :=
  if parent = "" then text else parent ++ "." ++ text

/-- `substr` from one index to another -/
def substr (start finish : ℕ) : String :=
  String.ofList ((source.drop start).take (finish - start))

/-- `array`, given its loop. -/
def array (entries : String → ℕ → Scan (Keys × ℕ)) (parent : String) (index : ℕ) :
    Scan (Keys × ℕ) :=
  (expect source "[" index).bind (entries parent)

/-- The loop of `array`, for at most so many iterations. -/
def entries : ℕ → String → Keys → ℕ → Scan (Keys × ℕ)
  | 0, _, _, _ => .endless
  | fuel + 1, parent, keys, index =>
      if index < source.length then
        (entry source index).bind fun
          | .closed index => .returned (keys, index)
          | .next index => entries fuel parent keys index
          | .assigned key start index =>
              entries fuel parent (put (childPath parent key) (substr source start index) keys) index
          | .nested none start =>
              (array source (fun parent => entries fuel parent []) "" start).bind fun child =>
                entries fuel parent keys child.2
          | .nested (some key) start =>
              let path := childPath parent key
              (array source (fun parent => entries fuel parent []) path start).bind fun child =>
                let keys := child.1.foldl (fun keys e => put e.1 e.2 keys) keys
                entries fuel parent (put path (substr source start child.2) keys) child.2
      else .returned (keys, index)

/-- The body of the loop of `all`, which looks for the returned array. -/
def allBody (index : ℕ) : Scan (Turn ℕ (Option ℕ)) :=
  if index < source.length then
    (skip source index).bind fun index =>
      if startsWith source index "return" then
        (skip source (index + 6)).bind fun index =>
          if source[index]? = some '[' then .returned (.done (some index))
          else .returned (.again (index + 1))
      else .returned (.again (index + 1))
  else .returned (.done none)

/-- The index of the returned array. -/
def returnedArray : Scan ℕ :=
  (skip source 0).bind fun index =>
    (Scan.loop (allBody source) (source.length + 2) index).bind fun
      | none => .stopped "Horizon config has no return array"
      | some index => .returned index

/-- `all`, with a budget of iterations for its arrays. -/
def all (fuel : ℕ) : Scan Keys :=
  (returnedArray source).bind fun index =>
    (array source (fun parent => entries source fuel parent []) "" index).bind fun found =>
      .returned found.1

/-! ## The scanners of white space, strings and values -/

variable {source} {i j : ℕ}

/-- A token stands at an index where the text goes on with it. -/
theorem startsWith_iff {index : ℕ} {token : String} :
    startsWith source index token ↔ (source.drop index).take token.length = token.toList := by
  simp [startsWith]

/-- A text that starts at an index gives the character there. -/
theorem getElem?_of_startsWith {token : String} {c : Char} {rest : List Char}
    (htoken : token.toList = c :: rest) (h : startsWith source i token) : source[i]? = some c := by
  rw [startsWith_iff, htoken] at h
  have hlength : token.length = rest.length + 1 := by simp [← String.length_toList, htoken]
  cases hdrop : source.drop i with
  | nil => simp [hdrop] at h
  | cons c' rest' =>
      rw [hdrop, hlength, List.take_succ_cons] at h
      have hhead : (source.drop i)[0]? = some c' := by rw [hdrop]; rfl
      rw [List.getElem?_drop, Nat.add_zero] at hhead
      rw [hhead, (List.cons.inj h).1]

/-- A token is found at the offset or behind it. -/
theorem le_strpos {token : String} {offset finish : ℕ}
    (h : strpos source token offset = some finish) : offset ≤ finish := by
  have hmem := List.mem_of_find?_eq_some h
  obtain ⟨n, -, rfl⟩ := List.mem_map.mp hmem
  exact Nat.le_add_right offset n

/-- A comment up to the end of its line is not empty. -/
theorem lt_lineEnd {c : Char} (hc : source[i]? = some c) (hne : c ≠ '\n') :
    i < lineEnd source i := by
  have hdrop : source.drop i = c :: source.drop (i + 1) := by
    obtain ⟨hi, rfl⟩ := List.getElem?_eq_some_iff.mp hc
    exact List.drop_eq_getElem_cons hi
  rw [lineEnd, hdrop, List.takeWhile_cons_of_pos (by simpa using hne), List.length_cons]
  omega

/-- Every iteration of `skip` that goes on advances the index. -/
theorem skipBody_advances (h : skipBody source i = .returned (.again j)) :
    i < j ∧ i < source.length := by
  unfold skipBody at h
  split at h
  case isFalse => cases h
  case isTrue hi =>
    refine ⟨?_, hi⟩
    split at h
    · cases h
      exact Nat.lt_succ_self i
    split at h
    case isTrue hline =>
      cases h
      obtain hline | hline := hline
      · exact lt_lineEnd (getElem?_of_startsWith (by rfl) hline) (by decide)
      · exact lt_lineEnd hline (by decide)
    split at h
    case isFalse => cases h
    split at h
    · cases h
    · rename_i hfinish
      cases h
      have := le_strpos hfinish
      omega

/-- A step over white space and comments ends inside the source. -/
theorem skipBody_ends : (skipBody source i).Ends := by
  unfold skipBody
  repeat' split
  all_goals simp

/-- So do all steps over them. -/
theorem skip_ends : (skip source i).Ends := by
  apply Scan.loop_ends (fun _ => skipBody_ends) (μ := fun i => source.length - i)
  · intro i j h
    have := skipBody_advances h
    omega
  · omega

/-- `skip` never goes back. -/
theorem le_skip (h : skip source i = .returned j) : i ≤ j := by
  refine Scan.loop_returned (I := (i ≤ ·)) (Q := (i ≤ ·)) ?_ ?_ (Nat.le_refl _) h
  · intro s s' hs hagain
    have := skipBody_advances hagain
    omega
  · intro s a hs hdone
    unfold skipBody at hdone
    repeat' split at hdone
    all_goals cases hdone
    all_goals exact hs

/-- `skip` stays where no white space and no comment starts. -/
theorem skip_eq_self {c : Char} (hc : source[i]? = some c)
    (h : c ∉ [' ', '\n', '\r', '\t', '/', '#']) : skip source i = .returned i := by
  have hne {c' : Char} (hc' : source[i]? = some c') : c' ∉ [' ', '\n', '\r', '\t', '/', '#'] := by
    rwa [← Option.some.inj (hc.symm.trans hc')]
  have hblank : ¬isBlank source[i]? := by
    simp_all [isBlank]
  have hline : ¬(startsWith source i "//" ∨ source[i]? = some '#') := by
    rintro (hline | hline)
    · exact hne (getElem?_of_startsWith (by rfl) hline) (by decide)
    · exact hne hline (by decide)
  have hcomment : ¬startsWith source i "/*" := fun hcomment =>
    hne (getElem?_of_startsWith (by rfl) hcomment) (by decide)
  have hbody : skipBody source i = .returned (.done i) := by
    unfold skipBody
    rw [if_neg hblank, if_neg hline, if_neg hcomment, ite_self]
  rw [skip, Scan.loop, hbody, Scan.bind_returned]

/-- Every iteration of `string` that goes on advances the index. -/
theorem stringBody_advances {quote : Option Char} {s s' : ℕ × List Char}
    (h : stringBody source quote s = .returned (.again s')) :
    s.1 < s'.1 ∧ s.1 < source.length := by
  obtain ⟨index, text⟩ := s
  unfold stringBody at h
  dsimp only at h
  split at h
  case isFalse => cases h
  case isTrue hi =>
    refine ⟨?_, hi⟩
    repeat' split at h
    all_goals cases h
    all_goals dsimp only; omega

/-- A step through a string ends inside the source. -/
theorem stringBody_ends {quote : Option Char} {s : ℕ × List Char} :
    (stringBody source quote s).Ends := by
  unfold stringBody
  dsimp only
  repeat' split
  all_goals simp

/-- So does the string. -/
theorem string_ends : (string source i).Ends := by
  apply Scan.loop_ends (fun _ => stringBody_ends) (μ := fun s => source.length - s.1)
  · intro s s' h
    have := stringBody_advances h
    omega
  · omega

/-- A string takes at least its quote. -/
theorem lt_string {read : List Char × ℕ} (h : string source i = .returned read) : i < read.2 := by
  refine Scan.loop_returned (I := fun s => i < s.1) (Q := fun read => i < read.2) ?_ ?_
    (Nat.lt_succ_self i) h
  · intro s s' hs hagain
    have := stringBody_advances hagain
    omega
  · intro s a hs hdone
    obtain ⟨index, text⟩ := s
    unfold stringBody at hdone
    dsimp only at hdone hs
    repeat' split at hdone
    all_goals cases hdone
    all_goals dsimp only; omega

/-- What an iteration of `value` does: it goes on behind its index, or leaves it at a character that
ends the value. -/
theorem valueTurn_cases {start : ℕ} {state : Nesting} {turn : Turn Nesting ℕ}
    (h : valueTurn source start state i = .returned turn) :
    (∃ state', turn = .again state' ∧ i < state'.index) ∨
      (turn = .done i ∧ source[i]? ∈ [some ')', some ']', some ',']) := by
  unfold valueTurn at h
  dsimp only at h
  split at h
  case isTrue =>
    obtain ⟨read, hread, h⟩ := Scan.bind_eq_returned.mp h
    cases h
    exact .inl ⟨_, rfl, lt_string hread⟩
  case isFalse =>
    repeat' split at h
    all_goals cases h
    all_goals first
      | exact .inl ⟨_, rfl, Nat.lt_succ_self i⟩
      | exact .inr ⟨rfl, by simp_all⟩

/-- Every iteration of `value` that goes on advances the index. -/
theorem valueBody_advances {start : ℕ} {s s' : Nesting}
    (h : valueBody source start s = .returned (.again s')) :
    s.index < s'.index ∧ s.index < source.length := by
  unfold valueBody at h
  split at h
  case isFalse => cases h
  case isTrue hi =>
    refine ⟨?_, hi⟩
    obtain ⟨j, hj, h⟩ := Scan.bind_eq_returned.mp h
    have hle := le_skip hj
    obtain ⟨state', hagain, hlt⟩ | ⟨hdone, -⟩ := valueTurn_cases h
    · cases hagain
      omega
    · cases hdone

/-- A step through a value ends inside the source. -/
theorem valueBody_ends {start : ℕ} {s : Nesting} : (valueBody source start s).Ends := by
  unfold valueBody
  split
  case isFalse => exact Scan.ends_returned
  case isTrue =>
    apply skip_ends.bind
    intro j _
    unfold valueTurn
    dsimp only
    split
    · exact string_ends.bind fun _ _ => Scan.ends_returned
    · repeat' split
      all_goals simp

/-- So does the value. -/
theorem value_ends : (value source i).Ends := by
  apply Scan.loop_ends (fun _ => valueBody_ends) (μ := fun s => source.length - s.index)
  · intro s s' h
    have := valueBody_advances h
    omega
  · dsimp only
    omega

/-- `value` never goes back. -/
theorem le_value {start : ℕ} {s : Nesting} {fuel : ℕ}
    (h : Scan.loop (valueBody source start) fuel s = .returned j) : s.index ≤ j := by
  refine Scan.loop_returned (I := fun s' => s.index ≤ s'.index) (Q := (s.index ≤ ·)) ?_ ?_ (Nat.le_refl _) h
  · intro s s' hs hagain
    have := valueBody_advances hagain
    omega
  · intro s a hs hdone
    unfold valueBody at hdone
    split at hdone
    · obtain ⟨j, hj, hdone⟩ := Scan.bind_eq_returned.mp hdone
      have hle := le_skip hj
      obtain ⟨_, hagain, -⟩ | ⟨hdone, -⟩ := valueTurn_cases hdone
      · cases hagain
      · cases hdone
        omega
    · cases hdone
      exact hs

/-- **`value` reads something** inside the text, except where a parenthesis, a bracket or a comma ends
it before it has begun. -/
theorem value_advances (h : value source i = .returned j) (hi : i < source.length) :
    i < j ∨ (j = i ∧ source[i]? ∈ [some ')', some ']', some ',']) := by
  obtain ⟨turn, hturn, h⟩ := Scan.bind_eq_returned.mp h
  cases turn with
  | again s =>
      have hlt := (valueBody_advances hturn).1
      have hle := le_value h
      dsimp only at hlt
      omega
  | done j' =>
      obtain rfl := Scan.returned.inj h
      rw [valueBody, if_pos hi] at hturn
      obtain ⟨k, hk, hturn⟩ := Scan.bind_eq_returned.mp hturn
      obtain ⟨_, hagain, -⟩ | ⟨hdone, hmem⟩ := valueTurn_cases hturn
      · cases hagain
      · cases hdone
        rcases Nat.lt_or_eq_of_le (le_skip hk) with hlt | rfl
        · exact .inl hlt
        · exact .inr ⟨rfl, hmem⟩

/-- `value` returns at a closing parenthesis without having read it. -/
theorem value_of_paren (h : source[i]? = some ')') : value source i = .returned i := by
  obtain ⟨hi, -⟩ := List.getElem?_eq_some_iff.mp h
  have hbody : valueBody source i ⟨i, 0, 0⟩ = .returned (.done i) := by
    rw [valueBody, if_pos hi, skip_eq_self h (by decide), Scan.bind_returned]
    simp [valueTurn, h, isQuote]
  rw [value, Scan.loop, hbody, Scan.bind_returned]

/-- So does an expected token. -/
theorem expect_ends {token : String} : (expect source token i).Ends := by
  apply skip_ends.bind
  intro j _
  split <;> simp

/-- A token that is expected is read. -/
theorem lt_expect {token : String} (htoken : token ≠ "") (h : expect source token i = .returned j) :
    i < j := by
  obtain ⟨k, hk, h⟩ := Scan.bind_eq_returned.mp h
  have hle := le_skip hk
  have hpos : 0 < token.length := by
    rw [← String.length_toList]
    exact List.length_pos_iff.mpr (by simpa using htoken)
  split at h
  · cases h
    omega
  · cases h

/-- The loop of `all` comes to an end. -/
theorem returnedArray_ends : (returnedArray source).Ends := by
  have hbody (i : ℕ) : (allBody source i).Ends := by
    unfold allBody
    split
    case isFalse => simp
    case isTrue =>
      apply skip_ends.bind
      intro j _
      split
      case isFalse => simp
      case isTrue =>
        apply skip_ends.bind
        intro k _
        split <;> simp
  have hadvances {i j : ℕ} (h : allBody source i = .returned (.again j)) :
      i < j ∧ i < source.length := by
    unfold allBody at h
    split at h
    case isFalse => cases h
    case isTrue hi =>
      refine ⟨?_, hi⟩
      obtain ⟨k, hk, h⟩ := Scan.bind_eq_returned.mp h
      have hle := le_skip hk
      split at h
      case isFalse =>
        cases h
        omega
      case isTrue =>
        obtain ⟨l, hl, h⟩ := Scan.bind_eq_returned.mp h
        have hle' := le_skip hl
        split at h
        · cases h
        · cases h
          omega
  apply skip_ends.bind
  intro index _
  refine Scan.Ends.bind ?_ ?_
  · apply Scan.loop_ends hbody (μ := fun i => source.length - i)
    · intro i j h
      have := hadvances h
      omega
    · omega
  · intro found _
    cases found <;> simp

/-! ## The iterations of an array -/

/-- The index an iteration comes to. -/
def Entry.index : Entry → ℕ
  | .closed index => index
  | .next index => index
  | .assigned _ _ index => index
  | .nested _ index => index

/-- So does the value of an entry. -/
theorem entryValue_ends {text : List Char} : (entryValue source text i).Ends := by
  apply skip_ends.bind
  intro j _
  dsimp only
  split
  · simp
  · apply value_ends.bind
    intro k _
    cases (if isNumber text then none else some (String.ofList text)) <;> simp

/-- So does an entry. -/
theorem entry_ends : (entry source i).Ends := by
  apply skip_ends.bind
  intro j _
  split
  · simp
  split
  · simp
  split
  · apply string_ends.bind
    intro read _
    apply skip_ends.bind
    intro k _
    split
    · exact entryValue_ends
    · simp
  · exact value_ends.bind fun _ _ => Scan.ends_returned

/-- The value of an entry stands behind its arrow. -/
theorem le_entryValue {text : List Char} {e : Entry} (h : entryValue source text i = .returned e) :
    i ≤ e.index := by
  obtain ⟨j, hj, h⟩ := Scan.bind_eq_returned.mp h
  have hle := le_skip hj
  dsimp only at h
  split at h
  · cases h
    exact hle
  · obtain ⟨k, hk, h⟩ := Scan.bind_eq_returned.mp h
    have hle' : j ≤ k := le_value hk
    cases hkey : (if isNumber text then none else some (String.ofList text)) <;>
      · rw [hkey] at h
        cases h
        exact Nat.le_trans hle hle'

/-- **An iteration of `array`** advances the index unless a closing parenthesis is next. -/
theorem entry_advances {e : Entry} (h : entry source i = .returned e) (hi : i < source.length)
    (hparen : source[i]? ≠ some ')') : i < e.index := by
  obtain ⟨j, hj, h⟩ := Scan.bind_eq_returned.mp h
  have hle := le_skip hj
  split at h
  · cases h
    exact Nat.lt_succ_of_le hle
  split at h
  · cases h
    exact Nat.lt_succ_of_le hle
  rename_i hclose hcomma
  split at h
  · obtain ⟨read, hread, h⟩ := Scan.bind_eq_returned.mp h
    obtain ⟨k, hk, h⟩ := Scan.bind_eq_returned.mp h
    have hread' := lt_string hread
    have hk' := le_skip hk
    split at h
    · have := le_entryValue h
      omega
    · cases h
      dsimp only [Entry.index]
      omega
  · obtain ⟨k, hk, h⟩ := Scan.bind_eq_returned.mp h
    cases h
    have hk' : j ≤ k := le_value hk
    -- A value that is empty begins at one of three characters, and two of them have been looked at.
    rcases Nat.lt_or_eq_of_le hle with hlt | rfl
    · exact Nat.lt_of_lt_of_le hlt hk'
    · obtain hlt | ⟨-, hmem⟩ := value_advances hk hi
      · exact hlt
      · simp_all

/-- At a closing parenthesis an iteration of `array` does nothing. -/
theorem entry_of_paren (h : source[i]? = some ')') : entry source i = .returned (.next i) := by
  rw [entry, skip_eq_self h (by decide), Scan.bind_returned, h]
  rw [if_neg (by decide), if_neg (by decide), if_neg (by decide), value_of_paren h]
  rfl

/-! ## The loop of an array -/

variable {keys : Keys} {parent : String} {fuel : ℕ} {found : Keys × ℕ}

section Iteration

variable (hi : i < source.length)

include hi

/-- A closing bracket ends the entries. -/
theorem entries_closed (h : entry source i = .returned (.closed j)) :
    entries source (fuel + 1) parent keys i = .returned (keys, j) := by
  rw [entries, if_pos hi, h]
  rfl

/-- An entry without a key of interest is passed over. -/
theorem entries_next (h : entry source i = .returned (.next j)) :
    entries source (fuel + 1) parent keys i = entries source fuel parent keys j := by
  rw [entries, if_pos hi, h]
  rfl

/-- An entry with a value is assigned to the path of its key. -/
theorem entries_assigned {key : String} {start : ℕ}
    (h : entry source i = .returned (.assigned key start j)) :
    entries source (fuel + 1) parent keys i =
      entries source fuel parent (put (childPath parent key) (substr source start j) keys) j := by
  rw [entries, if_pos hi, h]
  rfl

/-- An array in an array is read first, and the loop goes on behind it. -/
theorem entries_nested (fuel : ℕ) (parent : String) (keys : Keys) {key : Option String} {start : ℕ}
    (h : entry source i = .returned (.nested key start)) :
    ∃ path, ∃ next : Keys × ℕ → Keys, entries source (fuel + 1) parent keys i =
      (expect source "[" start).bind fun index =>
        (entries source fuel path [] index).bind fun child =>
          entries source fuel parent (next child) child.2 := by
  rw [entries, if_pos hi, h, Scan.bind_returned]
  cases key with
  | none => exact ⟨"", fun _ => keys, Scan.bind_assoc⟩
  | some key =>
      let path := childPath parent key
      let next (child : Keys × ℕ) : Keys :=
        put path (substr source start child.2) (child.1.foldl (fun keys e => put e.1 e.2 keys) keys)
      exact ⟨path, next, Scan.bind_assoc⟩

end Iteration

/-- Behind the source there are no entries. -/
theorem entries_of_le (hi : source.length ≤ i) :
    entries source (fuel + 1) parent keys i = .returned (keys, i) := by
  rw [entries, if_neg (Nat.not_lt.mpr hi)]

/-- At a closing parenthesis the loop of `array` has no end. -/
theorem entries_of_paren (h : source[i]? = some ')') :
    entries source fuel parent keys i = .endless := by
  obtain ⟨hi, -⟩ := List.getElem?_eq_some_iff.mp h
  induction fuel with
  | zero => rfl
  | succ fuel ih => rw [entries_next hi (entry_of_paren h), ih]

/-! ## The heads of the loops

A head is what the loop of an array is at before an iteration: the arrays it is in, and the index. -/

variable (source) in
/-- From one head to the next one. -/
inductive HeadStep : ℕ × ℕ → ℕ × ℕ → Prop
  | next {d i j : ℕ} (hi : i < source.length) (h : entry source i = .returned (.next j)) :
      HeadStep (d, i) (d, j)
  | assigned {d i j start : ℕ} {key : String} (hi : i < source.length)
      (h : entry source i = .returned (.assigned key start j)) : HeadStep (d, i) (d, j)
  | nested {d i j start : ℕ} {key : Option String} (hi : i < source.length)
      (h : entry source i = .returned (.nested key start))
      (hopen : expect source "[" start = .returned j) : HeadStep (d, i) (d + 1, j)
  | closed {d i j : ℕ} (hi : i < source.length) (h : entry source i = .returned (.closed j)) :
      HeadStep (d + 1, i) (d, j)
  | ended {d i : ℕ} (hi : source.length ≤ i) : HeadStep (d + 1, i) (d, i)

variable (source) in
/-- The heads a scan of the text comes to. -/
def Heads (d i : ℕ) : Prop :=
  ∃ start, (returnedArray source).bind (expect source "[") = .returned start ∧
    Relation.ReflTransGen (HeadStep source) (0, start) (d, i)

/-- An iteration of `array` never goes back. -/
theorem le_entry {e : Entry} (h : entry source i = .returned e) (hi : i < source.length) :
    i ≤ e.index := by
  by_cases hparen : source[i]? = some ')'
  · obtain rfl := Scan.returned.inj ((entry_of_paren hparen).symm.trans h)
    exact Nat.le_refl i
  · exact Nat.le_of_lt (entry_advances h hi hparen)

/-- The head moves forwards. -/
theorem HeadStep.le {s t : ℕ × ℕ} (h : HeadStep source s t) : s.2 ≤ t.2 := by
  cases h with
  | next hi he => exact le_entry he hi
  | assigned hi he => exact le_entry he hi
  | nested hi he hopen => exact Nat.le_trans (le_entry he hi) (Nat.le_of_lt (lt_expect (by decide) hopen))
  | closed hi he => exact le_entry he hi
  | ended hi => exact Nat.le_refl _

/-- What the loop of an array returns is where the loop around it goes on. -/
theorem reaches_of_entries (h : entries source fuel parent keys i = .returned found) (d : ℕ) :
    Relation.ReflTransGen (HeadStep source) (d + 1, i) (d, found.2) := by
  induction fuel generalizing parent keys i d found with
  | zero => cases h
  | succ fuel ih =>
      by_cases hi : i < source.length
      case neg =>
        rw [entries_of_le (Nat.not_lt.mp hi)] at h
        obtain rfl := Scan.returned.inj h
        exact .single (.ended (Nat.not_lt.mp hi))
      case pos =>
        obtain ⟨e, he, -⟩ := Scan.bind_eq_returned.mp (by rwa [entries, if_pos hi] at h)
        cases e with
        | closed j =>
            rw [entries_closed hi he] at h
            obtain rfl := Scan.returned.inj h
            exact .single (.closed hi he)
        | next j =>
            rw [entries_next hi he] at h
            exact .head (.next hi he) (ih h d)
        | assigned key start j =>
            rw [entries_assigned hi he] at h
            exact .head (.assigned hi he) (ih h d)
        | nested key start =>
            obtain ⟨path, next, heq⟩ := entries_nested hi fuel parent keys he
            rw [heq] at h
            obtain ⟨j, hj, h⟩ := Scan.bind_eq_returned.mp h
            obtain ⟨child, hchild, h⟩ := Scan.bind_eq_returned.mp h
            exact .head (.nested hi he hj) ((ih hchild (d + 1)).trans (ih h d))

/-- The loop of an array never goes back. -/
theorem le_entries (h : entries source fuel parent keys i = .returned found) : i ≤ found.2 := by
  have hle {s t : ℕ × ℕ} (h : Relation.ReflTransGen (HeadStep source) s t) : s.2 ≤ t.2 := by
    induction h with
    | refl => exact Nat.le_refl _
    | tail _ hstep ih => exact Nat.le_trans ih hstep.le
  exact hle (reaches_of_entries h 0)

/-- **A loop without a closing parenthesis at a head** comes to an end. -/
theorem entries_ends {d : ℕ}
    (hgood : ∀ d' i', Relation.ReflTransGen (HeadStep source) (d, i) (d', i') →
      source[i']? ≠ some ')') (hfuel : source.length - i < fuel) :
    (entries source fuel parent keys i).Ends := by
  induction fuel generalizing parent keys i d with
  | zero => exact absurd hfuel (Nat.not_lt_zero _)
  | succ fuel ih =>
      by_cases hi : i < source.length
      case neg =>
        rw [entries_of_le (Nat.not_lt.mp hi)]
        exact Scan.ends_returned
      case pos =>
        have hparen := hgood d i .refl
        cases he : entry source i with
        | endless => exact absurd he entry_ends
        | stopped message =>
            rw [entries, if_pos hi, he]
            exact Scan.ends_stopped
        | returned e =>
            have hlt := entry_advances he hi hparen
            cases e with
            | closed j =>
                rw [entries_closed hi he]
                exact Scan.ends_returned
            | next j =>
                rw [entries_next hi he]
                exact ih (fun d' i' h => hgood d' i' (.head (.next hi he) h))
                  (by dsimp only [Entry.index] at hlt; omega)
            | assigned key start j =>
                rw [entries_assigned hi he]
                exact ih (fun d' i' h => hgood d' i' (.head (.assigned hi he) h))
                  (by dsimp only [Entry.index] at hlt; omega)
            | nested key start =>
                dsimp only [Entry.index] at hlt
                obtain ⟨path, next, heq⟩ := entries_nested hi fuel parent keys he
                rw [heq]
                apply expect_ends.bind
                intro j hj
                have hj' := lt_expect (by decide) hj
                have hinner := Relation.ReflTransGen.single
                  (HeadStep.nested (d := d) hi he hj)
                apply (ih (fun d' i' h => hgood d' i' (hinner.trans h)) (by omega)).bind
                intro child hchild
                have hle := le_entries hchild
                have hbehind := hinner.trans (reaches_of_entries hchild d)
                exact ih (fun d' i' h => hgood d' i' (hbehind.trans h)) (by omega)

/-- **A loop that comes to an end** has no closing parenthesis at any of its heads: a head it reaches is
one of them, or lies behind the array. -/
theorem paren_of_entries {d : ℕ} {t : ℕ × ℕ} (hends : (entries source fuel parent keys i).Ends)
    (h : Relation.ReflTransGen (HeadStep source) (d, i) t) :
    source[t.2]? ≠ some ')' ∨ ∃ d' found, d = d' + 1 ∧
      entries source fuel parent keys i = .returned found ∧
      Relation.ReflTransGen (HeadStep source) (d', found.2) t := by
  induction fuel generalizing parent keys i d with
  | zero => exact absurd rfl hends
  | succ fuel ih =>
      rcases h.cases_head with rfl | ⟨s, hs, h⟩
      · exact .inl fun hparen => hends (entries_of_paren hparen)
      cases hs with
      | next hi he =>
          rw [entries_next hi he] at hends ⊢
          exact ih hends h
      | assigned hi he =>
          rw [entries_assigned hi he] at hends ⊢
          exact ih hends h
      | nested hi he hopen =>
          obtain ⟨path, next, heq⟩ := entries_nested hi fuel parent keys he
          rw [heq, hopen, Scan.bind_returned] at hends ⊢
          have hchild : (entries source fuel path [] _).Ends := fun hendless =>
            hends (by rw [hendless, Scan.bind_endless])
          obtain hgood | ⟨d', child, hd', hreturned, h⟩ := ih hchild h
          · exact .inl hgood
          obtain rfl := Nat.succ.inj hd'
          rw [hreturned, Scan.bind_returned] at hends ⊢
          exact ih hends h
      | closed hi he =>
          rw [entries_closed hi he]
          exact .inr ⟨_, _, rfl, rfl, h⟩
      | ended hi =>
          rw [entries_of_le hi]
          exact .inr ⟨_, _, rfl, rfl, h⟩

/-! ## Termination -/

variable (source) in
/-- `all` comes to an end, and every iteration of its loops advances the index, returns or stops. -/
structure Terminates : Prop where
  ends : ∃ fuel, (all source fuel).Ends
  skip : ∀ i j, skipBody source i = .returned (.again j) → i < j
  string : ∀ quote s s', stringBody source quote s = .returned (.again s') → s.1 < s'.1
  value : ∀ start s s', valueBody source start s = .returned (.again s') → s.index < s'.index
  array : ∀ d i e, Heads source d i → i < source.length → entry source i = .returned e → i < e.index

/-- `all` comes to an end exactly if no loop of an array comes to a closing parenthesis. -/
theorem all_ends_iff :
    (∃ fuel, (all source fuel).Ends) ↔ ∀ d i, Heads source d i → source[i]? ≠ some ')' := by
  constructor
  · rintro ⟨fuel, hends⟩ d i ⟨start, hstart, hreach⟩
    obtain ⟨index, hindex, hopen⟩ := Scan.bind_eq_returned.mp hstart
    have hentries : (entries source fuel "" [] start).Ends := fun hendless =>
      hends (by rw [all, hindex, Scan.bind_returned, array, hopen, Scan.bind_returned, hendless]; rfl)
    -- The outermost array is in no other one, so nothing lies behind it.
    obtain hgood | ⟨_, _, hd, -⟩ := paren_of_entries hentries hreach
    · exact hgood
    · exact absurd hd (Nat.succ_ne_zero _).symm
  · intro hgood
    refine ⟨source.length + 1, ?_⟩
    apply returnedArray_ends.bind
    intro index hindex
    refine Scan.Ends.bind (expect_ends.bind ?_) fun _ _ => Scan.ends_returned
    intro start hopen
    have hstart : (returnedArray source).bind (expect source "[") = .returned start := by
      rw [hindex, Scan.bind_returned, hopen]
    exact entries_ends (fun d i h => hgood d i ⟨start, hstart, h⟩) (by omega)

/-- **`all` terminates** exactly if no loop of an array comes to a closing parenthesis. -/
theorem all_terminates_iff : Terminates source ↔ ∀ d i, Heads source d i → source[i]? ≠ some ')' := by
  constructor
  · intro h
    exact all_ends_iff.mp h.ends
  · intro hgood
    exact {
      ends := all_ends_iff.mpr hgood
      skip := fun i j h => (skipBody_advances h).1
      string := fun quote s s' h => (stringBody_advances h).1
      value := fun start s s' h => (valueBody_advances h).1
      array := fun d i e hhead hi he => entry_advances he hi (hgood d i hhead) }

/-- A parenthesis that nothing has opened is where `array` and `value` wait for each other. -/
theorem all_of_unopened_paren :
    ¬Terminates "return [)]".toList ∧ ∀ fuel, all "return [)]".toList fuel = .endless := by
  have hendless (fuel : ℕ) : all "return [)]".toList fuel = .endless := by
    have hindex : returnedArray "return [)]".toList = .returned 7 := by decide
    have hopen : expect "return [)]".toList "[" 7 = .returned 8 := by decide
    rw [all, hindex, Scan.bind_returned, array, hopen, Scan.bind_returned,
      entries_of_paren (by decide), Scan.bind_endless]
  refine ⟨fun h => ?_, hendless⟩
  obtain ⟨fuel, hends⟩ := h.ends
  exact hends (hendless fuel)

/-- A parenthesis in a value is read with it. -/
example : all "<?php return ['a' => env('A', 1), 'b' => ['c' => 2]];".toList 9 =
    .returned [("a", "env('A', 1)"), ("b.c", "2"), ("b", "['c' => 2]")] := by decide

end HorizonConfigKeys

end HorizonNewDawn

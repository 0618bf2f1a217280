import Classad.Lexing
import Mathlib.Data.List.TakeWhile

/-! The loops of the two lexers go over a comment, an octal escape or an exponent in one
piece; `Lexing` goes over them rune by rune. -/
namespace Classad.Lexing
open Ast Option Bool Nat

section Comments

/-- What follows a line comment. -/
def afterLine : List Char → List Char
  | [] => []
  | c :: rest => if c == '\n' then rest else afterLine rest

theorem skipTrivia_line : skipTrivia .line text = skipTrivia .code (afterLine text) := by
  induction text with
  | nil => rfl
  | cons c rest ih =>
    rw [skipTrivia, afterLine]
    split
    · rfl
    · exact ih

/-- A line comment runs to the end of its line. -/
theorem afterLine_append (rest : List Char) (inside : ∀ c ∈ front, (c == '\n') = false) :
    afterLine (front ++ rest) = afterLine rest := by
  induction front with
  | nil => rfl
  | cons c front ih =>
    rw [List.cons_append, afterLine, inside c (.head _)]
    exact ih fun d member => inside d (.tail _ member)

theorem skipTrivia_slash (slash : follows '/' text = true) :
    skipTrivia .line text = skipTrivia .code (afterLine text.tail) := by
  cases text with
  | nil => cases slash
  | cons c rest =>
    obtain rfl : c = '/' := by simpa [follows] using slash
    exact skipTrivia_line

theorem afterLine_length (text : List Char) : (afterLine text).length ≤ text.length := by
  induction text with
  | nil => exact le_rfl
  | cons c rest ih =>
    rw [afterLine, List.length_cons]
    split <;> omega

/-- What follows a block comment. -/
def afterBlock : List Char → Option (List Char)
  | [] => none
  | c :: rest => if c == '*' && follows '/' rest then some rest.tail else afterBlock rest

theorem skipTrivia_closing (slash : follows '/' text = true) :
    skipTrivia .closing text = skipTrivia .code text.tail := by
  cases text with
  | nil => cases slash
  | cons c rest => rfl

theorem skipTrivia_block : skipTrivia .block text = (afterBlock text).bind (skipTrivia .code) := by
  induction text with
  | nil => rfl
  | cons c rest ih =>
    rw [skipTrivia, afterBlock]
    split
    next closes =>
      rw [and_eq_true] at closes
      exact skipTrivia_closing closes.2
    · exact ih

theorem skipTrivia_opening (star : follows '*' text = true) :
    skipTrivia .opening text = (afterBlock text.tail).bind (skipTrivia .code) := by
  cases text with
  | nil => cases star
  | cons c rest => exact skipTrivia_block

theorem afterBlock_length (closed : afterBlock text = some rest) : rest.length < text.length := by
  induction text with
  | nil => cases closed
  | cons c tail ih =>
    rw [afterBlock] at closed
    rw [List.length_cons]
    split at closed
    · obtain rfl := some.inj closed
      have shorter : tail.tail.length ≤ tail.length := by simp
      omega
    · have := ih closed
      omega

end Comments

section Pieces

/-- A sign right after the exponent's letter is taken, and anything else is scanned as
before. -/
theorem scanNumber_sign (hasDecimal : Bool) (text : List Char) :
    scanNumber hasDecimal true true text = if text.head?.any (fun c => c == '+' || c == '-') then
        (scanNumber hasDecimal true false text.tail).map (text.head?.elim id prepend)
      else scanNumber hasDecimal true false text := by
  cases text with
  | nil => rfl
  | cons c rest =>
    rw [List.head?_cons, any_some]
    by_cases sign : (c == '+' || c == '-') = true
    · simp only [or_eq_true, beq_iff_eq] at sign
      obtain rfl | rfl := sign <;> rfl
    · simp [scanNumber, sign]

/-- The octal digits at the front of a text, at most so many, and the rest. -/
def octalSpan : Nat → List Char → List Char × List Char
  | 0, text => ([], text)
  | _ + 1, [] => ([], [])
  | room + 1, c :: rest => if isOctalDigit c then prepend c (octalSpan room rest) else ([], c :: rest)

/-- An octal escape takes all the digits it can, and the string goes on after them. -/
theorem scanString_octal (digits : List Char) (room : Nat) (text : List Char) :
    scanString (.octal digits room) text = (octalChar (digits ++ (octalSpan room text).1)).bind fun plain =>
        (scanString .plain (octalSpan room text).2).map (prepend plain) := by
  induction text generalizing digits room with
  | nil =>
    have ended (plain : Char) : (scanString .plain ([] : List Char)).map (prepend plain) = none := rfl
    cases room <;> simp [octalSpan, scanString]
  | cons c rest ih =>
    have flushed : scanString (.octal digits 0) (c :: rest) =
        (octalChar digits).bind fun plain => (scanString .plain (c :: rest)).map (prepend plain) := by
      simp only [scanString, lt_irrefl, decide_false, Bool.false_and, Bool.false_eq_true, if_false]
      congr 1
      funext plain
      split
      · rfl
      split
      · rfl
      · rw [map_map]
    cases room with
    | zero => simpa [octalSpan] using flushed
    | succ room =>
      rw [octalSpan]
      split
      next digit =>
        simp [scanString, digit, ih, prepend]
      next digit =>
        rw [List.append_nil, ← flushed]
        simp [scanString, digit]

theorem octalSpan_length (room : Nat) (text : List Char) : (octalSpan room text).2.length ≤ text.length := by
  induction room generalizing text with
  | zero => exact le_rfl
  | succ room ih =>
    cases text with
    | nil => exact le_rfl
    | cons c rest =>
      rw [octalSpan]
      split
      · exact le_succ_of_le (ih rest)
      · exact le_rfl

end Pieces

section Words

theorem isASCIIDigit_bounds (digit : isASCIIDigit c = true) : 48 ≤ c.toNat ∧ c.toNat ≤ 57 := by
  simp only [isASCIIDigit, and_eq_true, decide_eq_true_eq] at digit
  exact digit

theorem isASCIILetter_bounds (letter : isASCIILetter c = true) :
    (97 ≤ c.toNat ∧ c.toNat ≤ 122) ∨ (65 ≤ c.toNat ∧ c.toNat ≤ 90) := by
  simp only [isASCIILetter, or_eq_true, and_eq_true, decide_eq_true_eq] at letter
  exact letter

theorem isASCIIDigit_startsWord (starts : startsWord c = true) : isASCIIDigit c = false := by
  rw [eq_false_iff]
  intro digit
  have bounds := isASCIIDigit_bounds digit
  rw [startsWord, or_eq_true, beq_iff_eq] at starts
  rcases starts with letter | rfl
  · have := isASCIILetter_bounds letter
    omega
  · exact absurd bounds.2 (by decide)

theorem continuesWord_startsWord (starts : startsWord c = true) : continuesWord c = true := by
  rw [startsWord, or_eq_true] at starts
  rcases starts with letter | line
  · rw [continuesWord, letter, Bool.true_or, Bool.true_or]
  · rw [continuesWord, line, Bool.or_true]

/-- A token that starts as a word is one. -/
theorem scanToken_word {rules : Rules} (starts : startsWord c = true) :
    scanToken rules c rest = some (scanWord rules.keepsScopeDot c rest) := by
  have other (d : Char) (no : startsWord d = false) : (c == d) = false := by
    rw [beq_eq_false_iff_ne]
    rintro rfl
    rw [starts] at no
    cases no
  rw [scanToken, other '"' rfl, other '\'' rfl, other '.' rfl, isASCIIDigit_startsWord starts, starts]
  rfl

end Words

section Progress

theorem skipTrivia_length (skipped : skipTrivia mode text = some rest) : rest.length ≤ text.length := by
  induction text generalizing mode with
  | nil =>
    cases mode with
    | code | line =>
      cases skipped
      exact le_rfl
    | block | opening | closing => cases skipped
  | cons c tail ih =>
    have later {mode : Trivia} (skipped : skipTrivia mode tail = some rest) : rest.length ≤ tail.length + 1 :=
      le_succ_of_le (ih skipped)
    cases mode with
    | code =>
      rw [skipTrivia] at skipped
      split at skipped
      · exact later skipped
      split at skipped
      · exact later skipped
      split at skipped
      · exact later skipped
      · cases skipped
        exact le_rfl
    | line =>
      rw [skipTrivia] at skipped
      split at skipped <;> exact later skipped
    | block =>
      rw [skipTrivia] at skipped
      split at skipped <;> exact later skipped
    | opening => exact later skipped
    | closing => exact later skipped

variable {text input rest : List Char}

/-- What is left after a scan that put a character before what it found. -/
theorem map_prepend_some {rest : α}
    (scanned : found.map (prepend c) = some (text, rest)) : ∃ more, found = some (more, rest) ∧ text = c :: more := by
  obtain ⟨⟨more, after⟩, taken, same⟩ := map_eq_some_iff.mp scanned
  obtain ⟨rfl, rfl⟩ := Prod.mk.inj same
  exact ⟨more, taken, rfl⟩

theorem scanNumber_length
    (scanned : scanNumber hasDecimal hasExponent signAllowed input = some (text, isReal, rest)) :
    rest.length ≤ input.length := by
  induction input generalizing hasDecimal hasExponent signAllowed text with
  | nil =>
    cases scanned
    exact le_rfl
  | cons c tail ih =>
    have later {dec exp sign : Bool} (scanned : (scanNumber dec exp sign tail).map (prepend c) =
      some (text, isReal, rest)) :
        rest.length ≤ tail.length + 1 := by
      obtain ⟨_, taken, _⟩ := map_prepend_some scanned
      exact le_succ_of_le (ih taken)
    rw [scanNumber] at scanned
    split at scanned
    · exact later scanned
    split at scanned
    · split at scanned
      · exact later scanned
      · cases scanned
    split at scanned
    · exact later scanned
    split at scanned
    · exact later scanned
    · cases scanned
      exact le_rfl

theorem scanString_length
    (scanned : scanString state input = some (text, rest)) : rest.length < input.length := by
  induction input generalizing state text with
  | nil => cases state <;> cases scanned
  | cons c tail ih =>
    have later {state : StringState} {text : List Char} (scanned : scanString state tail = some (text, rest)) :
        rest.length < tail.length + 1 := lt_succ_of_lt (ih scanned)
    have mapped {state : StringState} {text : List Char} {d : Char}
        (scanned : (scanString state tail).map (prepend d) = some (text, rest)) : rest.length < tail.length + 1 := by
      obtain ⟨_, taken, _⟩ := map_prepend_some scanned
      exact later taken
    cases state with
    | plain =>
      rw [scanString] at scanned
      split at scanned
      · cases scanned
        exact lt_succ_self _
      split at scanned
      · exact later scanned
      · exact mapped scanned
    | escape =>
      rw [scanString] at scanned
      split at scanned
      · exact mapped scanned
      split at scanned
      · exact later scanned
      · cases scanned
    | octal digits room =>
      rw [scanString] at scanned
      split at scanned
      · exact later scanned
      · obtain ⟨plain, _, scanned⟩ := bind_eq_some_iff.mp scanned
        split at scanned
        · cases scanned
          exact lt_succ_self _
        split at scanned
        · exact mapped scanned
        · rw [← map_map] at scanned
          obtain ⟨_, taken, _⟩ := map_prepend_some scanned
          exact mapped taken

theorem scanStringOld_length
    (scanned : scanStringOld escaped input = some (text, rest)) : rest.length < input.length := by
  induction input generalizing escaped text with
  | nil => cases scanned
  | cons c tail ih =>
    rw [scanStringOld] at scanned
    split at scanned
    · cases scanned
      exact lt_succ_self _
    split at scanned
    · exact lt_succ_of_lt (ih scanned)
    · obtain ⟨_, taken, _⟩ := map_prepend_some scanned
      exact lt_succ_of_lt (ih taken)

theorem scanQuotedIdentifier_length
    (scanned : scanQuotedIdentifier escaped input = some (text, rest)) : rest.length < input.length := by
  induction input generalizing escaped text with
  | nil => cases escaped <;> cases scanned
  | cons c tail ih =>
    have mapped (scanned : (scanQuotedIdentifier false tail).map (prepend c) = some (text, rest)) :
        rest.length < tail.length + 1 := by
      obtain ⟨_, taken, _⟩ := map_prepend_some scanned
      exact lt_succ_of_lt (ih taken)
    cases escaped with
    | true => exact mapped scanned
    | false =>
      rw [scanQuotedIdentifier] at scanned
      split at scanned
      · cases scanned
        exact lt_succ_self _
      split at scanned
      · cases scanned
      split at scanned
      · exact lt_succ_of_lt (ih scanned)
      · exact mapped scanned

theorem scanWord_length (keeps : Bool) (first : Char) (rest : List Char) :
    (scanWord keeps first rest).2.length ≤ rest.length := by
  have after := rest.length_dropWhile_le continuesWord
  have tail : (rest.dropWhile continuesWord).tail.length ≤ (rest.dropWhile continuesWord).length := by simp
  have name := (rest.dropWhile continuesWord).tail.length_dropWhile_le continuesWord
  rw [scanWord]
  dsimp only
  split
  · split <;> (dsimp only; omega)
  · exact after

theorem scanSymbol_length (scanned : scanSymbol c rest = some (token, after)) : after.length ≤ rest.length := by
  have one : rest.tail.length ≤ rest.length := by simp
  have two : rest.tail.tail.length ≤ rest.tail.length := by simp
  unfold scanSymbol at scanned
  all_goals first
    | cases scanned
    | (repeat' split at scanned) <;> cases scanned <;> omega

/-- A token takes at least its first character. -/
theorem scanToken_length (scanned : scanToken rules c rest = some (token, after)) : after.length ≤ rest.length := by
  rw [scanToken] at scanned
  split at scanned
  · obtain ⟨⟨value, left⟩, taken, same⟩ := map_eq_some_iff.mp scanned
    obtain ⟨_, rfl⟩ := Prod.mk.inj same
    split at taken
    · exact le_of_lt (scanStringOld_length taken)
    · exact le_of_lt (scanString_length taken)
  split at scanned
  · obtain ⟨⟨value, left⟩, taken, same⟩ := map_eq_some_iff.mp scanned
    obtain ⟨_, rfl⟩ := Prod.mk.inj same
    exact le_of_lt (scanQuotedIdentifier_length taken)
  split at scanned
  · obtain ⟨⟨text, isReal, left⟩, taken, number⟩ := bind_eq_some_iff.mp scanned
    obtain ⟨_, _, same⟩ := map_eq_some_iff.mp number
    obtain ⟨_, rfl⟩ := Prod.mk.inj same
    exact scanNumber_length taken
  split at scanned
  · have length := scanWord_length rules.keepsScopeDot c rest
    rw [some.inj scanned] at length
    exact length
  · exact scanSymbol_length scanned

/-- A token that is not the end shortens the text. -/
theorem next_length
    (scanned : next rules text = some (token, after)) (more : token ≠ .eof) : after.length < text.length := by
  obtain ⟨rest, skipped, scanned⟩ := bind_eq_some_iff.mp scanned
  have shorter := skipTrivia_length skipped
  cases rest with
  | nil =>
    cases scanned
    exact absurd rfl more
  | cons c rest =>
    rw [List.length_cons] at shorter
    have := scanToken_length scanned
    omega

end Progress

end Classad.Lexing

import Classad.Lexing

/-! The lexer that reads its text rune by rune from a reader. One rune may be staged: read
ahead of the lexer and not yet consumed. The runes consumed are kept, and the last of them
can be pushed back.

A loop over the reader carries a bound on its rounds; `roundsOf` is always enough. -/
namespace Classad.StreamingLexer
open Ast Lexing

structure State where
  /-- The runes the reader has not delivered yet. -/
  reader : List Char
  pending : Option Char
  /-- The runes consumed, the last one first. -/
  seen : List Char
  err : Option LexError

abbrev Lex := StateM State

/-- A lexer over a text. -/
def newLexer (text : Text) : State := { reader := Utf8.runes text, pending := none, seen := [], err := none }

def roundsOf (l : State) : Nat := l.reader.length + 2

section Reading

def readRune : Lex (Option Char) := fun l =>
  match l.pending with
  | some ch => (some ch, { l with pending := none, seen := ch :: l.seen })
  | none =>
    match l.reader with
    | [] => (none, l)
    | ch :: rest => (some ch, { l with reader := rest, seen := ch :: l.seen })

def unreadRune : Lex Unit := fun l =>
  match l.seen with
  | [] => ((), l)
  | last :: before => ((), { l with seen := before, pending := some last })

def peekRune : Lex (Option Char) := fun l =>
  match l.pending with
  | some ch => (some ch, l)
  | none =>
    match l.reader with
    | [] => (none, l)
    | ch :: rest => (some ch, { l with reader := rest, pending := some ch })

/-- The next rune, without staging it. -/
def peekRuneRaw : Lex (Option Char) := fun l =>
  match l.pending with
  | some ch => (some ch, l)
  | none => (l.reader.head?, l)

/-- Consume a rune that has been peeked at. -/
def discardRune : Lex Unit := do
  let _ ← readRune

/-- `Error`: the last error reported is the one that stays. -/
def fail (err : LexError) : Lex Unit := fun l => ((), { l with err := some err })

end Reading

section Trivia

def skipLineComment : Nat → Lex Unit
  | 0 => pure ()
  | rounds + 1 => do
    match ← readRune with
    | none => pure ()
    | some ch => if ch == '\n' then pure () else skipLineComment rounds

/-- Whether the comment ended. -/
def skipBlockComment : Nat → Lex Bool
  | 0 => pure false
  | rounds + 1 => do
    match ← readRune with
    | none =>
      fail .unterminatedBlockComment
      pure false
    | some ch =>
      if ch == '*' then
        if (← peekRune) == some '/' then
          discardRune
          pure true
        else skipBlockComment rounds
      else skipBlockComment rounds

/-- Stage a rune that was consumed. -/
def stage (ch : Char) : Lex Unit := fun l => ((), { l with pending := some ch, seen := l.seen.drop 1 })

/-- Whether there is a rune after the blanks and the comments; it is staged. -/
def skipTrivia : Nat → Lex Bool
  | 0 => pure false
  | rounds + 1 => do
    match ← readRune with
    | none => pure false
    | some ch =>
      if isSpace ch then skipTrivia rounds
      else if ch == '/' then
        let next ← peekRuneRaw
        if next == some '/' then
          discardRune
          skipLineComment rounds
          skipTrivia rounds
        else if next == some '*' then
          discardRune
          if ← skipBlockComment rounds then skipTrivia rounds else pure false
        else
          stage ch
          pure true
      else
        stage ch
        pure true

end Trivia

section Strings

/-- The digits of an octal escape after those read, at most so many. -/
def octalDigits : Nat → List Char → Lex (List Char)
  | 0, digits => pure digits
  | more + 1, digits => do
    match ← peekRune with
    | none => pure digits
    | some next =>
      if isOctalDigit next then
        discardRune
        octalDigits more (digits ++ [next])
      else pure digits

/-- The value of the string whose opening quote has been consumed; `result` is what has been
read of it. An invalid escape is reported and the scan goes on. -/
def scanString (lenientEscapes : Bool) : Nat → List Char → Lex (List Char)
  | 0, result => pure result
  | rounds + 1, result => do
    match ← readRune with
    | none =>
      fail .unterminatedString
      pure result
    | some ch =>
      if ch == '"' then pure result
      else if ch == '\\' then
        if lenientEscapes then
          if (← peekRune) == some '"' then
            discardRune
            scanString lenientEscapes rounds (result ++ ['"'])
          else scanString lenientEscapes rounds (result ++ ['\\'])
        else
          match ← readRune with
          | none =>
            fail .unterminatedEscape
            pure result
          | some escaped =>
            match simpleEscape escaped with
            | some plain => scanString lenientEscapes rounds (result ++ [plain])
            | none =>
              if isOctalDigit escaped then
                let digits ← octalDigits (maxDigits escaped - 1) [escaped]
                if numeral 8 digits == 0 then
                  fail (.nullCharacter (Utf8.encode digits))
                  pure result
                else scanString lenientEscapes rounds (result ++ [Char.ofNat (numeral 8 digits)])
              else
                fail (.invalidEscape escaped)
                scanString lenientEscapes rounds (result ++ [escaped])
      else scanString lenientEscapes rounds (result ++ [ch])

/-- The name whose opening quote has been consumed. -/
def scanQuotedIdentifier : Nat → List Char → Lex (Option (List Char))
  | 0, _ => pure none
  | rounds + 1, name => do
    match ← readRune with
    | none =>
      fail .unterminatedName
      pure none
    | some ch =>
      if ch == '\'' then pure (some name)
      else if ch == '\n' then
        fail .newlineInName
        pure none
      else if ch == '\\' then
        match ← readRune with
        | none =>
          fail .unterminatedName
          pure none
        | some escaped => scanQuotedIdentifier rounds (name ++ [escaped])
      else scanQuotedIdentifier rounds (name ++ [ch])

end Strings

section Words

/-- The text of a number and whether it is a real, or nothing where a decimal point has no
digit after it. -/
def scanNumber : Nat → List Char → Bool → Bool → Lex (Option (List Char × Bool))
  | 0, _, _, _ => pure none
  | rounds + 1, text, hasDecimal, hasExponent => do
    match ← peekRune with
    | none => pure (some (text, hasDecimal || hasExponent))
    | some ch =>
      if isASCIIDigit ch then
        discardRune
        scanNumber rounds (text ++ [ch]) hasDecimal hasExponent
      else if ch == '.' && !hasDecimal && !hasExponent then
        discardRune
        if ((← peekRune).any isASCIIDigit) then scanNumber rounds (text ++ [ch]) true hasExponent
        else
          fail (.expectedDigit (Utf8.encode (text ++ [ch])))
          pure none
      else if (ch == 'e' || ch == 'E') && !hasExponent then
        discardRune
        match ← peekRune with
        | none => scanNumber rounds (text ++ [ch]) true true
        | some sign =>
          if sign == '+' || sign == '-' then
            discardRune
            scanNumber rounds (text ++ [ch, sign]) true true
          else scanNumber rounds (text ++ [ch]) true true
      else pure (some (text, hasDecimal || hasExponent))

/-- The token of a number that starts with a consumed character. -/
def numberAt (parseFloat : Text → Option Float) (first : Char) : Lex Token := do
  let l ← get
  match ← scanNumber (roundsOf l) [first] (first == '.') false with
  | none => pure .eof
  | some (text, isReal) =>
    match numberToken parseFloat text isReal with
    | .ok token => pure token
    | .error err =>
      fail err
      pure .eof

/-- The characters of a word after those read. -/
def scanWord : Nat → List Char → Lex (List Char)
  | 0, word => pure word
  | rounds + 1, word => do
    match ← peekRune with
    | none => pure word
    | some ch =>
      if continuesWord ch then
        discardRune
        scanWord rounds (word ++ [ch])
      else pure word

/-- A scope word consumes the dot after it, and is one token with the name after the dot.
Without such a name the dot is dropped. -/
def scanIdentifierOrKeyword (first : Char) : Lex Token := do
  let l ← get
  let text ← scanWord (roundsOf l) [first]
  if (← peekRune) == some '.' && isScopeWord text then
    discardRune
    match ← peekRune with
    | none => pure (classify text)
    | some peek =>
      if startsWord peek then
        discardRune
        let l ← get
        let text ← scanWord (roundsOf l) (text ++ ['.', peek])
        pure (classify text)
      else pure (classify text)
  else pure (classify text)

end Words

section Lexing

/-- Consume the next rune if it is the expected one. -/
def accept (expected : Char) : Lex Bool := do
  if (← peekRune) == some expected then
    discardRune
    pure true
  else pure false

variable (parseFloat : Text → Option Float) (lenientEscapes : Bool)

/-- The token that starts with a consumed character. -/
def lexFrom (ch : Char) : Lex Token :=
  match ch with
  | '[' => pure (.symbol .lbracket)
  | ']' => pure (.symbol .rbracket)
  | '{' => pure (.symbol .lbrace)
  | '}' => pure (.symbol .rbrace)
  | '(' => pure (.symbol .lparen)
  | ')' => pure (.symbol .rparen)
  | ';' => pure (.symbol .semicolon)
  | ',' => pure (.symbol .comma)
  | '?' => do
    if ← accept ':' then pure (.symbol .elvis) else pure (.symbol .question)
  | ':' => pure (.symbol .colon)
  | '^' => pure (.symbol .caret)
  | '~' => pure (.symbol .tilde)
  | '+' => pure (.symbol .plus)
  | '-' => pure (.symbol .minus)
  | '*' => pure (.symbol .star)
  | '%' => pure (.symbol .percent)
  | '.' => do
    if ((← peekRune).any isASCIIDigit) then numberAt parseFloat '.' else pure (.symbol .dot)
  | '"' => do
    let l ← get
    let value ← scanString lenientEscapes (roundsOf l) []
    pure (.string (Utf8.encode value))
  | '\'' => do
    let l ← get
    match ← scanQuotedIdentifier (roundsOf l) [] with
    | none => pure .eof
    | some name => pure (.identifier (Utf8.encode name))
  | '=' => do
    let next ← peekRune
    if next == some '=' then
      discardRune
      pure (.symbol .eq)
    else if next == some '?' then
      discardRune
      if (← peekRuneRaw) == some '=' then
        discardRune
        pure (.symbol .is)
      else
        unreadRune
        pure (.symbol .assign)
    else if next == some '!' then
      discardRune
      if (← peekRuneRaw) == some '=' then
        discardRune
        pure (.symbol .isnt)
      else
        unreadRune
        pure (.symbol .assign)
    else pure (.symbol .assign)
  | '!' => do
    if ← accept '=' then pure (.symbol .ne) else pure (.symbol .bang)
  | '<' => do
    if ← accept '=' then pure (.symbol .le)
    else if ← accept '<' then pure (.symbol .lshift)
    else pure (.symbol .less)
  | '>' => do
    if ← accept '=' then pure (.symbol .ge)
    else if ← accept '>' then
      if ← accept '>' then pure (.symbol .urshift) else pure (.symbol .rshift)
    else pure (.symbol .greater)
  | '&' => do
    if ← accept '&' then pure (.symbol .and) else pure (.symbol .ampersand)
  | '|' => do
    if ← accept '|' then pure (.symbol .or) else pure (.symbol .bar)
  | '/' => pure (.symbol .slash)
  | _ =>
    if isASCIIDigit ch then numberAt parseFloat ch
    else if startsWord ch then scanIdentifierOrKeyword ch
    else do
      fail (.unexpectedCharacter ch)
      pure .eof

/-- `Lex`: the end of the input is a token, which also stands for an error. -/
def lex : Lex Token := do
  let l ← get
  if ← skipTrivia (roundsOf l) then
    match ← readRune with
    | none => pure .eof
    | some ch => lexFrom parseFloat lenientEscapes ch
  else pure .eof

/-- `Next`. -/
def next (l : State) : Except LexError (Token × State) :=
  let (token, after) := lex parseFloat lenientEscapes l
  match after.err with
  | some err => .error err
  | none => .ok (token, after)

end Lexing

/-- The tokens up to the end or the first error, and whether the end was reached. -/
def tokens (parseFloat : Text → Option Float) (lenientEscapes : Bool) (text : Text) : List Token × Bool :=
  collect (fun l => (next parseFloat lenientEscapes l).toOption) (text.length + 1) (newLexer text)

end Classad.StreamingLexer

import Classad.Lexing

/-! The lexer that indexes into a text held in memory. Its state is the text from the
position on; a piece of the source is the bytes scanned over. Where it decodes runes, a loop
carries a bound on its rounds, and the length of the text is always enough. -/
namespace Classad.ByteLexer
open Ast Lexing Utf8

/-- A byte as a character, to compare it with one. -/
def char (b : UInt8) : Char := Char.ofNat b.toNat

section Trivia

def isBlank (b : UInt8) : Bool :=
  let c := char b
  c == ' ' || c == '\t' || c == '\n' || c == '\r' || c == '\x0c' || c == '\x0b'

/-- Whether the byte at the position is a given character. -/
def isAt (expected : Char) : Text → Bool
  | [] => false
  | b :: _ => char b == expected

/-- Whether the byte at the position is a digit. -/
def digitAt : Text → Bool
  | [] => false
  | b :: _ => isASCIIDigit (char b)

/-- The text after a block comment. -/
def skipBlockComment : Text → Except LexError Text
  | [] => .error .unterminatedBlockComment
  | b :: rest => if char b == '*' && isAt '/' rest then .ok (rest.drop 1) else skipBlockComment rest

/-- The text after blanks and comments. -/
def skipTrivia : Nat → Text → Except LexError Text
  | 0, text => .ok text
  | _ + 1, [] => .ok []
  | rounds + 1, b :: rest =>
    if b.toNat < 0x80 then
      if isBlank b then skipTrivia rounds rest
      else if char b == '/' then
        if isAt '/' rest then skipTrivia rounds ((rest.drop 1).dropWhile fun b => char b != '\n')
        else if isAt '*' rest then skipBlockComment (rest.drop 1) >>= skipTrivia rounds
        else .ok (b :: rest)
      else .ok (b :: rest)
    else
      let (r, after) := decodeRune b rest
      if isSpace r then skipTrivia rounds after else .ok (b :: rest)

end Trivia

section Numbers

/-- The bytes of a number after those scanned: the whole text, whether it is a real, and
what follows. -/
def numberText : Nat → Text → Bool → Bool → Text → Except LexError (Text × Bool × Text)
  | 0, text, hasDecimal, hasExponent, rest => .ok (text, hasDecimal || hasExponent, rest)
  | _ + 1, text, hasDecimal, hasExponent, [] => .ok (text, hasDecimal || hasExponent, [])
  | rounds + 1, text, hasDecimal, hasExponent, b :: rest =>
    if isASCIIDigit (char b) then numberText rounds (text ++ [b]) hasDecimal hasExponent rest
    else if char b == '.' && !hasDecimal && !hasExponent then
      if digitAt rest then numberText rounds (text ++ [b]) true hasExponent rest
      else .error (.expectedDigit (text ++ [b]))
    else if (char b == 'e' || char b == 'E') && !hasExponent then
      if isAt '+' rest || isAt '-' rest then numberText rounds (text ++ b :: rest.take 1) true true (rest.drop 1)
      else numberText rounds (text ++ [b]) true true rest
    else .ok (text, hasDecimal || hasExponent, b :: rest)

/-- The token of a number, which may start with its decimal point. -/
def scanNumber (parseFloat : Text → Option Float) (b : UInt8) (rest : Text) : Except LexError (Token × Text) := do
  let (text, isReal, after) ← numberText rest.length [b] (char b == '.') false rest
  let token ← numberToken parseFloat (text.map char) isReal
  pure (token, after)

end Numbers

section Words

/-- A scope word consumes the dot after it, whatever comes next. -/
def scanIdentifierOrKeyword (b : UInt8) (rest : Text) : Token × Text :=
  let word := b :: rest.takeWhile fun b => continuesWord (char b)
  let after := rest.dropWhile fun b => continuesWord (char b)
  if isAt '.' after && isScopeWord (word.map char) then
    let dotted := word ++ after.take 1
    let name := after.drop 1
    if name.head?.any fun b => startsWord (char b) then
      (classify ((dotted ++ name.takeWhile fun b => continuesWord (char b)).map char),
        name.dropWhile fun b => continuesWord (char b))
    else (classify (dotted.map char), name)
  else (classify (word.map char), after)

end Words

section Strings

/-- `normalizeUTF8`: each invalid byte is replaced. -/
def normalizeUTF8 (text : Text) : Text :=
  if validString text then text else encode (runes text)

/-- The digits of an octal escape after those read, at most so many, and the text after
them. -/
def octalDigits : Nat → List Char → Text → List Char × Text
  | 0, digits, rest => (digits, rest)
  | _ + 1, digits, [] => (digits, [])
  | more + 1, digits, b :: rest =>
    if isOctalDigit (char b) then octalDigits more (digits ++ [char b]) rest else (digits, b :: rest)

/-- The character of an escape after its backslash, and the text after it. -/
def escapeAt : Text → Except LexError (Char × Text)
  | [] => .error .unterminatedEscape
  | esc :: rest =>
    match simpleEscape (char esc) with
    | some plain => .ok (plain, rest)
    | none =>
      if isOctalDigit (char esc) then
        let (digits, after) := octalDigits (maxDigits (char esc) - 1) [char esc] rest
        if numeral 8 digits == 0 then .error (.nullCharacter (encode digits))
        else .ok (Char.ofNat (numeral 8 digits), after)
      else .error (.invalidEscape (char esc))

/-- The value of a string from its first escape on. -/
def scanEscapes : Nat → Text → Text → Except LexError (Text × Text)
  | 0, _, _ => .error .unterminatedString
  | _ + 1, _, [] => .error .unterminatedString
  | rounds + 1, value, b :: rest =>
    if char b == '"' then .ok (value, rest)
    else if char b == '\\' then
      match escapeAt rest with
      | .error err => .error err
      | .ok (plain, after) => scanEscapes rounds (value ++ encodeRune plain) after
    else scanEscapes rounds (value ++ encodeRune (decodeRune b rest).1) (decodeRune b rest).2

/-- A string whose opening quote has been passed. One without escapes is a piece of the
source. -/
def scanString (rest : Text) : Except LexError (Token × Text) :=
  let plain := rest.takeWhile fun b => char b != '"' && char b != '\\'
  match rest.dropWhile fun b => char b != '"' && char b != '\\' with
  | [] => .error .unterminatedString
  | b :: after =>
    if char b == '"' then .ok (.string (normalizeUTF8 plain), after)
    else (scanEscapes (after.length + 1) (normalizeUTF8 plain) (b :: after)).map fun (value, after) =>
      (.string value, after)

/-- The rune after the backslash of a quoted name, and the text after it. -/
def escapedRune : Text → Except LexError (Char × Text)
  | [] => .error .unterminatedName
  | b :: rest => .ok (decodeRune b rest)

/-- A quoted name from its first escape on. -/
def scanNameEscapes : Nat → Text → Text → Except LexError (Text × Text)
  | 0, _, _ => .error .unterminatedName
  | _ + 1, _, [] => .error .unterminatedName
  | rounds + 1, name, b :: rest =>
    if char b == '\'' then .ok (name, rest)
    else if char b == '\n' then .error .newlineInName
    else if char b == '\\' then
      match escapedRune rest with
      | .error err => .error err
      | .ok (r, after) => scanNameEscapes rounds (name ++ encodeRune r) after
    else scanNameEscapes rounds (name ++ encodeRune (decodeRune b rest).1) (decodeRune b rest).2

/-- The characters at which a piece of a quoted name ends. -/
def endsName (c : Char) : Bool := c == '\'' || c == '\n' || c == '\\'

/-- A quoted name whose opening quote has been passed. -/
def scanQuotedIdentifier (rest : Text) : Except LexError (Token × Text) :=
  let plain := rest.takeWhile fun b => !endsName (char b)
  match rest.dropWhile fun b => !endsName (char b) with
  | [] => .error .unterminatedName
  | b :: after =>
    if char b == '\'' then .ok (.identifier (normalizeUTF8 plain), after)
    else if char b == '\n' then .error .newlineInName
    else
      (scanNameEscapes (after.length + 1) (normalizeUTF8 plain) (b :: after)).map fun (name, after) =>
        (.identifier name, after)

end Strings

variable (parseFloat : Text → Option Float)

/-- `Next`, after the blanks and the comments. -/
def lexFrom (b : UInt8) (rest : Text) : Except LexError (Token × Text) :=
  match char b with
  | '[' => .ok (.symbol .lbracket, rest)
  | ']' => .ok (.symbol .rbracket, rest)
  | '{' => .ok (.symbol .lbrace, rest)
  | '}' => .ok (.symbol .rbrace, rest)
  | '(' => .ok (.symbol .lparen, rest)
  | ')' => .ok (.symbol .rparen, rest)
  | ';' => .ok (.symbol .semicolon, rest)
  | ',' => .ok (.symbol .comma, rest)
  | ':' => .ok (.symbol .colon, rest)
  | '^' => .ok (.symbol .caret, rest)
  | '~' => .ok (.symbol .tilde, rest)
  | '+' => .ok (.symbol .plus, rest)
  | '-' => .ok (.symbol .minus, rest)
  | '*' => .ok (.symbol .star, rest)
  | '%' => .ok (.symbol .percent, rest)
  | '/' => .ok (.symbol .slash, rest)
  | '?' =>
    if isAt ':' rest then .ok (.symbol .elvis, rest.drop 1) else .ok (.symbol .question, rest)
  | '.' =>
    if digitAt rest then scanNumber parseFloat b rest else .ok (.symbol .dot, rest)
  | '"' => scanString rest
  | '\'' => scanQuotedIdentifier rest
  | '=' =>
    if isAt '=' rest then .ok (.symbol .eq, rest.drop 1)
    else if isAt '?' rest && isAt '=' (rest.drop 1) then .ok (.symbol .is, rest.drop 2)
    else if isAt '!' rest && isAt '=' (rest.drop 1) then .ok (.symbol .isnt, rest.drop 2)
    else .ok (.symbol .assign, rest)
  | '!' =>
    if isAt '=' rest then .ok (.symbol .ne, rest.drop 1) else .ok (.symbol .bang, rest)
  | '<' =>
    if isAt '=' rest then .ok (.symbol .le, rest.drop 1)
    else if isAt '<' rest then .ok (.symbol .lshift, rest.drop 1)
    else .ok (.symbol .less, rest)
  | '>' =>
    if isAt '=' rest then .ok (.symbol .ge, rest.drop 1)
    else if isAt '>' rest then
      if isAt '>' (rest.drop 1) then .ok (.symbol .urshift, rest.drop 2) else .ok (.symbol .rshift, rest.drop 1)
    else .ok (.symbol .greater, rest)
  | '&' =>
    if isAt '&' rest then .ok (.symbol .and, rest.drop 1) else .ok (.symbol .ampersand, rest)
  | '|' =>
    if isAt '|' rest then .ok (.symbol .or, rest.drop 1) else .ok (.symbol .bar, rest)
  | c =>
    if isASCIIDigit c then scanNumber parseFloat b rest
    else if startsWord c then .ok (scanIdentifierOrKeyword b rest)
    else .error (.unexpectedCharacter (decodeRune b rest).1)

/-- `Next`. -/
def next (text : Text) : Except LexError (Token × Text) := do
  match ← skipTrivia text.length text with
  | [] => pure (.eof, [])
  | b :: rest => lexFrom parseFloat b rest

/-- The tokens up to the end or the first error, and whether the end was reached. -/
def tokens (text : Text) : List Token × Bool :=
  collect (fun text => (next parseFloat text).toOption) (text.length + 1) text

end Classad.ByteLexer

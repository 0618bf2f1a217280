import Classad.Ast
import Classad.Utf8

/-! The tokens of the language, and how a text read rune by rune is cut into them. This is
the common meaning of the two lexers, `ByteLexer` and `StreamingLexer`: each of them is
compared with it, and the parsers are compared on its tokens. -/
namespace Classad.Lexing
open Ast

/-- The operators and the punctuation. -/
inductive Symbol where
  | lbracket | rbracket | lbrace | rbrace | lparen | rparen
  | semicolon | comma | question | colon | caret | tilde
  | plus | minus | star | percent | slash | dot
  | assign | bang | less | greater | ampersand | bar
  | elvis | or | and | eq | ne | is | isnt | le | ge | lshift | rshift | urshift
  deriving DecidableEq, Repr

/-- A token and the value it carries. -/
inductive Token where
  | eof
  | identifier (name : Text)
  | string (value : Text)
  | integer (value : Int64)
  | real (value : Float)
  | boolean (value : Bool)
  | undefined
  | error
  | int64MinMagnitude
  | symbol (symbol : Symbol)
  deriving DecidableEq, Inhabited

/-- What a lexer reports on text that is no token. The line, the column and the caret of
the rendered message are left out. -/
inductive LexError where
  | unexpectedCharacter (r : Char)
  | unterminatedBlockComment
  | expectedDigit (text : Text)
  | invalidReal (text : Text)
  | leadingZero (text : Text)
  | invalidInteger (text : Text)
  | unterminatedString
  | unterminatedEscape
  | invalidEscape (r : Char)
  | nullCharacter (digits : Text)
  | newlineInName
  | unterminatedName

section Characters

variable (c : Char)

def isASCIILetter : Bool := ('a' ≤ c && c ≤ 'z') || ('A' ≤ c && c ≤ 'Z')

def isASCIIDigit : Bool := '0' ≤ c && c ≤ '9'

def isOctalDigit : Bool := '0' ≤ c && c ≤ '7'

/-- The first character of a bare name. -/
def startsWord : Bool := isASCIILetter c || c == '_'

/-- The other characters of a bare name. -/
def continuesWord : Bool := isASCIILetter c || isASCIIDigit c || c == '_'

/-- `unicode.IsSpace`. -/
def isSpace : Bool :=
  let n := c.toNat
  (9 ≤ n && n ≤ 13) || n == 0x20 || n == 0x85 || n == 0xA0 || n == 0x1680 || (0x2000 ≤ n && n ≤ 0x200A) ||
    n == 0x2028 || n == 0x2029 || n == 0x202F || n == 0x205F || n == 0x3000

/-- Lower case, for the words of the language, which are ASCII. -/
def lowerChar : Char := if 'A' ≤ c && c ≤ 'Z' then Char.ofNat (c.toNat + 32) else c

end Characters

section Words

/-- The words that prefix a scoped reference. -/
def isScopeWord (word : List Char) : Bool :=
  let lower := word.map lowerChar
  lower == "my".toList || lower == "target".toList || lower == "parent".toList

/-- A word that is a keyword is one in any case. -/
def classify (word : List Char) : Token :=
  let lower := word.map lowerChar
  if lower == "true".toList then .boolean true
  else if lower == "false".toList then .boolean false
  else if lower == "undefined".toList then .undefined
  else if lower == "error".toList then .error
  else if lower == "is".toList then .symbol .is
  else if lower == "isnt".toList then .symbol .isnt
  else .identifier (Utf8.encode word)

/-- The value of a sequence of digits. -/
def numeral (base : Nat) (digits : List Char) : Nat :=
  digits.foldl (fun value digit => value * base + (digit.toNat - '0'.toNat)) 0

/-- How a lexer is set up: what `ParseFloat` makes of a text (nothing on a syntax error),
whether a backslash in a string stands for itself, and whether the dot of a bare scope word
is part of the token. -/
structure Rules where
  parseFloat : Text → Option Float
  lenientEscapes : Bool
  keepsScopeDot : Bool

/-- The token of a number's text. -/
def numberToken (parseFloat : Text → Option Float) (text : List Char) (isReal : Bool) : Except LexError Token :=
  if isReal then
    match parseFloat (Utf8.encode text) with
    | some value => .ok (.real value)
    | none => .error (.invalidReal (Utf8.encode text))
  else if 1 < text.length && text.head? == some '0' then .error (.leadingZero (Utf8.encode text))
  else if numeral 10 text < 2 ^ 63 then .ok (.integer (Int64.ofNat (numeral 10 text)))
  else if numeral 10 text = 2 ^ 63 then .ok .int64MinMagnitude
  else .error (.invalidInteger (Utf8.encode text))

/-- The escapes of one character. -/
def simpleEscape : Char → Option Char
  | 'b' => some '\x08'
  | 't' => some '\t'
  | 'n' => some '\n'
  | 'f' => some '\x0c'
  | 'r' => some '\r'
  | '\\' => some '\\'
  | '"' => some '"'
  | '\'' => some '\''
  | _ => none

/-- How many digits an octal escape may have, by its first. -/
def maxDigits (c : Char) : Nat := if c ≤ '3' then 3 else 2

/-- An octal escape's character; the null character is refused. -/
def octalChar (digits : List Char) : Option Char :=
  if numeral 8 digits = 0 then none else some (Char.ofNat (numeral 8 digits))

end Words

section Scanning

/-- Whether a text starts with a given character. -/
def follows (c : Char) (text : List Char) : Bool := text.head? == some c

/-- Between tokens, in a line comment, at the star that opens a block comment, in the
comment, or at the slash that closes it. -/
inductive Trivia where
  | code
  | line
  | opening
  | block
  | closing

/-- Skip blanks and comments; a block comment has to end. -/
def skipTrivia : Trivia → List Char → Option (List Char)
  | .code, [] => some []
  | .code, c :: rest =>
    if isSpace c then skipTrivia .code rest
    else if c == '/' && follows '/' rest then skipTrivia .line rest
    else if c == '/' && follows '*' rest then skipTrivia .opening rest
    else some (c :: rest)
  | .line, [] => some []
  | .line, c :: rest => if c == '\n' then skipTrivia .code rest else skipTrivia .line rest
  | .block, [] => none
  | .block, c :: rest => if c == '*' && follows '/' rest then skipTrivia .closing rest else skipTrivia .block rest
  | .opening, [] => none
  | .opening, _ :: rest => skipTrivia .block rest
  | .closing, [] => none
  | .closing, _ :: rest => skipTrivia .code rest

/-- Put a character before what has been scanned. -/
def prepend {α : Type} (c : Char) : List Char × α → List Char × α := fun (text, after) => (c :: text, after)

/-- The rest of a number after its first character: its text, whether it is a real, and what
follows. A decimal point needs a digit after it; a sign may stand right after the exponent's
letter only. -/
def scanNumber (hasDecimal hasExponent signAllowed : Bool) : List Char → Option (List Char × Bool × List Char)
  | [] => some ([], hasDecimal || hasExponent, [])
  | c :: rest =>
    if isASCIIDigit c then (scanNumber hasDecimal hasExponent false rest).map (prepend c)
    else if c == '.' && !hasDecimal && !hasExponent then
      if rest.head?.any isASCIIDigit then (scanNumber true hasExponent false rest).map (prepend c) else none
    else if (c == 'e' || c == 'E') && !hasExponent then (scanNumber true true true rest).map (prepend c)
    else if (c == '+' || c == '-') && signAllowed then (scanNumber hasDecimal hasExponent false rest).map (prepend c)
    else some ([], hasDecimal || hasExponent, c :: rest)

/-- Where a scan is in a string: after a backslash, or after some digits of an octal escape
that may have so many more. -/
inductive StringState where
  | plain
  | escape
  | octal (digits : List Char) (room : Nat)

/-- The rest of a string after its opening quote: its value and what follows. -/
def scanString : StringState → List Char → Option (List Char × List Char)
  | _, [] => none
  | .plain, c :: rest =>
    if c == '"' then some ([], rest)
    else if c == '\\' then scanString .escape rest
    else (scanString .plain rest).map (prepend c)
  | .escape, e :: rest =>
    match simpleEscape e with
    | some plain => (scanString .plain rest).map (prepend plain)
    | none => if isOctalDigit e then scanString (.octal [e] (maxDigits e - 1)) rest else none
  | .octal digits room, c :: rest =>
    if 0 < room && isOctalDigit c then scanString (.octal (digits ++ [c]) (room - 1)) rest
    else
      (octalChar digits).bind fun plain =>
        if c == '"' then some ([plain], rest)
        else if c == '\\' then (scanString .escape rest).map (prepend plain)
        else (scanString .plain rest).map (prepend plain ∘ prepend c)

/-- The rest of a string of the old format: a backslash stands for itself, except before a
quote, which is then part of the string. -/
def scanStringOld : Bool → List Char → Option (List Char × List Char)
  | _, [] => none
  | escaped, c :: rest =>
    if c == '"' && !escaped then some ([], rest)
    else if c == '\\' && follows '"' rest then scanStringOld true rest
    else (scanStringOld false rest).map (prepend c)

/-- The rest of a quoted name after its opening quote. -/
def scanQuotedIdentifier : Bool → List Char → Option (List Char × List Char)
  | _, [] => none
  | true, c :: rest => (scanQuotedIdentifier false rest).map (prepend c)
  | false, c :: rest =>
    if c == '\'' then some ([], rest)
    else if c == '\n' then none
    else if c == '\\' then scanQuotedIdentifier true rest
    else (scanQuotedIdentifier false rest).map (prepend c)

/-- A word and the characters after it. A scope word takes its dot with it, and the name
after the dot. -/
def scanWord (keepsScopeDot : Bool) (first : Char) (rest : List Char) : Token × List Char :=
  let word := first :: rest.takeWhile continuesWord
  let after := rest.dropWhile continuesWord
  if follows '.' after && isScopeWord word then
    let name := after.tail
    if name.head?.any startsWord then
      (classify (word ++ '.' :: name.takeWhile continuesWord), name.dropWhile continuesWord)
    else (classify (if keepsScopeDot then word ++ ['.'] else word), name)
  else (classify word, after)

/-- A number's token and the characters after it. -/
def scanNumberToken (parseFloat : Text → Option Float) (first : Char) (rest : List Char) : Option (Token × List Char) :=
  (scanNumber (first == '.') false false rest).bind fun (text, isReal, after) =>
    (numberToken parseFloat (first :: text) isReal).toOption.map fun token => (token, after)

/-- The symbol that starts with a given character, and the characters after it. -/
def scanSymbol (c : Char) (rest : List Char) : Option (Token × List Char) :=
  match c with
  | '[' => some (.symbol .lbracket, rest)
  | ']' => some (.symbol .rbracket, rest)
  | '{' => some (.symbol .lbrace, rest)
  | '}' => some (.symbol .rbrace, rest)
  | '(' => some (.symbol .lparen, rest)
  | ')' => some (.symbol .rparen, rest)
  | ';' => some (.symbol .semicolon, rest)
  | ',' => some (.symbol .comma, rest)
  | ':' => some (.symbol .colon, rest)
  | '^' => some (.symbol .caret, rest)
  | '~' => some (.symbol .tilde, rest)
  | '+' => some (.symbol .plus, rest)
  | '-' => some (.symbol .minus, rest)
  | '*' => some (.symbol .star, rest)
  | '%' => some (.symbol .percent, rest)
  | '/' => some (.symbol .slash, rest)
  | '.' => some (.symbol .dot, rest)
  | '?' => some (if follows ':' rest then (.symbol .elvis, rest.tail) else (.symbol .question, rest))
  | '=' =>
    some (if follows '=' rest then (.symbol .eq, rest.tail)
      else if follows '?' rest && follows '=' rest.tail then (.symbol .is, rest.tail.tail)
      else if follows '!' rest && follows '=' rest.tail then (.symbol .isnt, rest.tail.tail)
      else (.symbol .assign, rest))
  | '!' => some (if follows '=' rest then (.symbol .ne, rest.tail) else (.symbol .bang, rest))
  | '<' =>
    some (if follows '=' rest then (.symbol .le, rest.tail)
      else if follows '<' rest then (.symbol .lshift, rest.tail)
      else (.symbol .less, rest))
  | '>' =>
    some (if follows '=' rest then (.symbol .ge, rest.tail)
      else if follows '>' rest then
        if follows '>' rest.tail then (.symbol .urshift, rest.tail.tail) else (.symbol .rshift, rest.tail)
      else (.symbol .greater, rest))
  | '&' => some (if follows '&' rest then (.symbol .and, rest.tail) else (.symbol .ampersand, rest))
  | '|' => some (if follows '|' rest then (.symbol .or, rest.tail) else (.symbol .bar, rest))
  | _ => none

/-- The token that starts with a given character, and the characters after it. -/
def scanToken (rules : Rules) (c : Char) (rest : List Char) : Option (Token × List Char) :=
  if c == '"' then
    ((if rules.lenientEscapes then scanStringOld false else scanString .plain) rest).map fun (value, after) =>
      (.string (Utf8.encode value), after)
  else if c == '\'' then
    (scanQuotedIdentifier false rest).map fun (name, after) => (.identifier (Utf8.encode name), after)
  else if isASCIIDigit c || (c == '.' && (rest.head?.any isASCIIDigit)) then scanNumberToken rules.parseFloat c rest
  else if startsWord c then some (scanWord rules.keepsScopeDot c rest)
  else scanSymbol c rest

/-- The first token of a text, and the text after it; nothing on a lexical error. -/
def next (rules : Rules) (text : List Char) : Option (Token × List Char) :=
  (skipTrivia .code text).bind fun
    | [] => some (.eof, [])
    | c :: rest => scanToken rules c rest

end Scanning

/-- The tokens of a text up to its end or to the first error, at most so many. The flag
tells whether the end was reached. -/
def collect {σ : Type} (next : σ → Option (Token × σ)) : Nat → σ → List Token × Bool
  | 0, _ => ([], false)
  | more + 1, state =>
    match next state with
    | none => ([], false)
    | some (.eof, _) => ([], true)
    | some (token, after) =>
      match collect next more after with
      | (found, ended) => (token :: found, ended)

/-- The tokens of a whole text, if it has no lexical error. -/
def tokens (rules : Rules) (text : List Char) : Option (List Token) :=
  match collect (next rules) (text.length + 1) text with
  | (found, true) => some found
  | (_, false) => none

end Classad.Lexing

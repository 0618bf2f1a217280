import Classad.ByteLexer
import Classad.LexingProofs

/-! The byte lexer cuts its text as `Lexing` cuts the runes of the text, the dot of a bare
scope word kept. All that it compares a byte with is ASCII, and such a byte is a rune. -/
namespace Classad.ByteLexer
open Ast Lexing Utf8 ByteLexer Option Bool
open List hiding after tail
open Except (toOption)

section Bytes

theorem char_toNat (b : UInt8) : (char b).toNat = b.toNat :=
  ofNat_toNat (Or.inl (by have := b.toNat_lt; omega))

/-- A predicate that only ASCII characters satisfy. -/
def OnASCII (p : Char → Bool) : Prop := ∀ c, p c = true → c.toNat < 0x80

theorem onASCII_beq (small : c.toNat < 0x80) : OnASCII (· == c) := by
  intro d same
  rwa [beq_iff_eq.mp same]

theorem onASCII_digit : OnASCII isASCIIDigit := by
  intro c digit
  have := isASCIIDigit_bounds digit
  omega

theorem onASCII_octal : OnASCII isOctalDigit := by
  intro c digit
  simp only [isOctalDigit, and_eq_true, decide_eq_true_eq] at digit
  have bounds : 48 ≤ c.toNat ∧ c.toNat ≤ 55 := digit
  omega

theorem onASCII_letter : OnASCII isASCIILetter := by
  intro c letter
  have := isASCIILetter_bounds letter
  omega

variable {p : Char → Bool}

theorem OnASCII.or (left : OnASCII p) (right : OnASCII q) : OnASCII fun c => p c || q c := by
  intro c either
  rw [or_eq_true] at either
  exact either.elim (left c) (right c)

theorem onASCII_startsWord : OnASCII startsWord :=
  onASCII_letter.or (onASCII_beq (by decide))

theorem onASCII_continuesWord : OnASCII continuesWord :=
  (onASCII_letter.or onASCII_digit).or (onASCII_beq (by decide))

section
variable (ascii : OnASCII p)
include ascii

theorem OnASCII.refuses (large : 0x80 ≤ c.toNat) : p c = false := by
  rw [eq_false_iff]
  intro holds
  have := ascii c holds
  omega

/-- The first rune of a text satisfies such a predicate exactly when its first byte does. -/
theorem OnASCII.decodeRune (b : UInt8) (rest : Text) :
    p (Utf8.decodeRune b rest).1 = p (char b) := by
  by_cases small : b.toNat < 0x80
  · rw [decodeRune_ascii small]
    rfl
  · have large := Nat.le_of_not_lt small
    rw [ascii.refuses (decodeRune_long rest large), ascii.refuses (char_toNat b ▸ large)]

theorem OnASCII.runes_cons (rest : Text) (holds : p (char b) = true) :
    runes (b :: rest) = char b :: runes rest :=
  runes_ascii (char_toNat b ▸ ascii _ holds)

theorem OnASCII.decoded (rest : Text) (holds : p (char b) = true) :
    Utf8.decodeRune b rest = (char b, rest) :=
  decodeRune_ascii (char_toNat b ▸ ascii _ holds)

variable (text : Text)

/-- The first rune that does not satisfy such a predicate comes from the first byte that does
not. -/
theorem OnASCII.head :
    (runes text).head?.any p = text.head?.any fun b => p (char b) := by
  cases text with
  | nil => rfl
  | cons b rest =>
    exact ascii.decodeRune b rest

theorem OnASCII.dropWhile :
    runes (text.dropWhile fun b => p (char b)) = (runes text).dropWhile p := by
  induction text with
  | nil => rfl
  | cons b rest ih =>
    rw [dropWhile_cons, Utf8.runes_cons, dropWhile_cons, ascii.decodeRune]
    split
    next holds =>
      rw [ih, ascii.decoded rest holds]
    · rw [Utf8.runes_cons]

theorem OnASCII.takeWhile :
    (text.takeWhile fun b => p (char b)).map char = (runes text).takeWhile p := by
  induction text with
  | nil => rfl
  | cons b rest ih =>
    rw [takeWhile_cons, Utf8.runes_cons, takeWhile_cons, ascii.decodeRune]
    split
    next holds =>
      rw [map_cons, ih, ascii.decoded rest holds]
    · rw [map_nil]

end

theorem isAt_runes (small : c.toNat < 0x80) (text : Text) : isAt c text = follows c (runes text) := by
  have same := (onASCII_beq small).head text
  cases text with
  | nil => rfl
  | cons b rest =>
    rw [isAt, follows, Utf8.runes_cons]
    rw [Utf8.runes_cons] at same
    simpa using same.symm

theorem digitAt_runes (text : Text) : digitAt text = (runes text).head?.any isASCIIDigit := by
  rw [onASCII_digit.head]
  cases text <;> rfl

/-- A byte found to be a given ASCII character is a rune. -/
theorem runes_drop (small : c.toNat < 0x80) (there : isAt c text = true) :
    runes (text.drop 1) = (runes text).tail := by
  cases text with
  | nil => rfl
  | cons b rest =>
    rw [(onASCII_beq small).runes_cons rest there]
    rfl

/-- A text that avoids such characters has no rune among them. -/
theorem OnASCII.avoids (ascii : OnASCII p) (none : ∀ b ∈ text, p (char b) = false) :
    ∀ r ∈ runes text, p r = false := by
  generalize count : text.length = n
  induction n using Nat.strongRecOn generalizing text with
  | _ n ih =>
    cases text with
    | nil => exact nofun
    | cons b rest =>
      obtain ⟨tail, split, _⟩ := decodeRune_tail b rest
      have shorter := decodeRune_length b rest
      rw [length_cons] at count
      rw [Utf8.runes_cons]
      intro r inside
      rcases mem_cons.mp inside with rfl | later
      · rw [ascii.decodeRune]
        exact none b (.head _)
      · refine ih _ (by omega) (fun c member => none c ?_) rfl r later
        rw [split]
        exact .tail _ (mem_append_right tail member)

/-- A text up to the first of such characters, which is a rune of it. -/
theorem OnASCII.split (ascii : OnASCII p) (stopped : (text.dropWhile fun b => !p (char b)) = b :: after) :
    p (char b) = true ∧ runes text = runes (text.takeWhile fun b => !p (char b)) ++ char b :: runes after ∧
      ∀ r ∈ runes (text.takeWhile fun b => !p (char b)), p r = false := by
  have holds : p (char b) = true := by
    have first := head?_dropWhile_not (fun b => !p (char b)) text
    rw [stopped] at first
    simpa using first
  have whole : text = (text.takeWhile fun b => !p (char b)) ++ b :: after := by
    rw [← stopped, takeWhile_append_dropWhile]
  refine ⟨holds, ?_, ascii.avoids fun c inside => by simpa using mem_takeWhile_imp inside⟩
  have small : b.toNat < 0x80 := char_toNat b ▸ ascii _ holds
  calc runes text = runes ((text.takeWhile fun b => !p (char b)) ++ b :: after) := congrArg _ whole
    _ = _ := runes_append_stop _ after small

theorem OnASCII.never (ascii : OnASCII p)
    (ended : (text.dropWhile fun b => !p (char b)) = []) : ∀ r ∈ runes text, p r = false := by
  apply ascii.avoids
  simpa using dropWhile_eq_nil_iff.mp ended

end Bytes

section Trivia

theorem isBlank_isSpace (small : b.toNat < 0x80) : isBlank b = isSpace (char b) := by
  have all : ∀ n < 0x80, isBlank n.toUInt8 = isSpace (char n.toUInt8) := by decide
  have same := all b.toNat small
  rwa [show b.toNat.toUInt8 = b from UInt8.ofNat_toNat] at same

/-- A line comment ends before its newline, which is a blank. -/
theorem skipTrivia_lineEnd (text : Text) :
    Lexing.skipTrivia .code (runes (text.dropWhile fun b => char b != '\n')) =
      Lexing.skipTrivia .code (afterLine (runes text)) := by
  have ascii : OnASCII (· == '\n') := onASCII_beq (by decide)
  change Lexing.skipTrivia .code (runes (text.dropWhile fun b => !(char b == '\n'))) = _
  cases ended : text.dropWhile fun b => !(char b == '\n') with
  | nil =>
    have line := afterLine_append [] (ascii.never ended)
    rw [append_nil] at line
    rw [line]
    rfl
  | cons b after =>
    obtain ⟨newline, whole, inside⟩ := ascii.split ended
    rw [whole, afterLine_append _ inside, ascii.runes_cons after newline, beq_iff_eq.mp newline]
    rfl

theorem skipBlockComment_tail (after : Text) (large : ∀ b ∈ tail, 0x80 ≤ b.toNat) :
    skipBlockComment (tail ++ after) = skipBlockComment after := by
  induction tail with
  | nil => rfl
  | cons b tail ih =>
    have star : OnASCII (· == '*') := onASCII_beq (by decide)
    have other := star.refuses (char_toNat b ▸ large b (.head _))
    rw [cons_append, skipBlockComment, other]
    exact ih fun c member => large c (.tail _ member)

theorem skipBlockComment_runes (text : Text) :
    (skipBlockComment text).toOption.map runes = afterBlock (runes text) := by
  generalize count : text.length = n
  induction n using Nat.strongRecOn generalizing text with
  | _ n ih =>
    cases text with
    | nil => rfl
    | cons b rest =>
      have star : OnASCII (· == '*') := onASCII_beq (by decide)
      rw [length_cons] at count
      by_cases small : b.toNat < 0x80
      · rw [runes_ascii small, skipBlockComment, afterBlock, isAt_runes (by decide)]
        change Option.map _ (toOption (if (char b == '*' && follows '/' (runes rest)) = true then _ else _)) =
          if (char b == '*' && follows '/' (runes rest)) = true then _ else _
        split
        next closes =>
          rw [and_eq_true, ← isAt_runes (by decide)] at closes
          change some _ = _
          rw [runes_drop (by decide) closes.2]
        · exact ih _ (by omega) rest rfl
      · have large : 0x80 ≤ b.toNat := by omega
        obtain ⟨tail, split, bytes⟩ := decodeRune_tail b rest
        have shorter := decodeRune_length b rest
        have skipped : skipBlockComment (b :: rest) = skipBlockComment (Utf8.decodeRune b rest).2 := by
          have bytes' : ∀ c ∈ b :: tail, 0x80 ≤ c.toNat := by simpa [large] using bytes
          have all := skipBlockComment_tail (Utf8.decodeRune b rest).2 bytes'
          rwa [cons_append, ← split] at all
        have plain := star.refuses (decodeRune_long rest large)
        rw [skipped, Utf8.runes_cons, afterBlock, plain]
        exact ih _ (by omega) _ rfl

theorem skipBlockComment_length (closed : skipBlockComment text = .ok after) : after.length < text.length := by
  induction text with
  | nil => cases closed
  | cons b rest ih =>
    rw [skipBlockComment] at closed
    rw [length_cons]
    split at closed
    · have fewer : (rest.drop 1).length ≤ rest.length := by simp
      cases closed
      omega
    · have := ih closed
      omega

theorem skipTrivia_runes (enough : text.length ≤ rounds) :
    (skipTrivia rounds text).toOption.map runes = Lexing.skipTrivia .code (runes text) := by
  induction rounds generalizing text with
  | zero =>
    obtain rfl : text = [] := length_eq_zero_iff.mp (by omega)
    rfl
  | succ rounds ih =>
    cases text with
    | nil => rfl
    | cons b rest =>
      rw [length_cons] at enough
      have fewer : (rest.drop 1).length ≤ rest.length := by simp
      rw [skipTrivia]
      split
      next small =>
        rw [runes_ascii small, Lexing.skipTrivia, isBlank_isSpace small]
        change _ = if isSpace (char b) = true then _ else if (char b == '/' && _) = true then _
          else if (char b == '/' && _) = true then _ else some (char b :: _)
        split
        · exact ih (by omega)
        split
        next slash =>
          rw [slash, Bool.true_and, Bool.true_and, ← isAt_runes (by decide), ← isAt_runes (by decide)]
          split
          next line =>
            have found : follows '/' (runes rest) = true := by rwa [← isAt_runes (by decide)]
            have shorter := (rest.drop 1).length_dropWhile_le fun b => char b != '\n'
            rw [skipTrivia_slash found, ← runes_drop (by decide) line, ← skipTrivia_lineEnd]
            exact ih (by omega)
          by_cases block : isAt '*' rest = true
          · have found : follows '*' (runes rest) = true := by rwa [← isAt_runes (by decide)]
            rw [if_pos block, if_pos block, skipTrivia_opening found, ← runes_drop (by decide) block,
              ← skipBlockComment_runes]
            cases closed : skipBlockComment (rest.drop 1) with
            | error err => rfl
            | ok after =>
              have shorter := skipBlockComment_length closed
              exact ih (by omega)
          · rw [if_neg block, if_neg block]
            exact congrArg some (runes_ascii small)
        next slash =>
          have other : (char b == '/') = false := by simpa using slash
          rw [other]
          exact congrArg some (runes_ascii small)
      · have large : 0x80 ≤ b.toNat := by omega
        have shorter := decodeRune_length b rest
        have slash : OnASCII (· == '/') := onASCII_beq (by decide)
        have other := slash.refuses (decodeRune_long rest large)
        by_cases space : isSpace (Utf8.decodeRune b rest).1 = true
        · rw [Utf8.runes_cons, Lexing.skipTrivia, if_pos space]
          simp only [space, if_true]
          exact ih (by omega)
        · simp only [space]
          rw [Utf8.runes_cons, Lexing.skipTrivia, if_neg space, other]
          exact congrArg some (Utf8.runes_cons b rest)

end Trivia

section Words

theorem scanIdentifierOrKeyword_runes (b : UInt8) (rest : Text) :
    ((scanIdentifierOrKeyword b rest).1, runes (scanIdentifierOrKeyword b rest).2) =
      Lexing.scanWord true (char b) (runes rest) := by
  have word := onASCII_continuesWord.takeWhile rest
  have after := onASCII_continuesWord.dropWhile rest
  rw [scanIdentifierOrKeyword, Lexing.scanWord, ← word, ← after]
  generalize rest.takeWhile (fun b => continuesWord (char b)) = word
  generalize rest.dropWhile (fun b => continuesWord (char b)) = after
  dsimp only
  rw [map_cons, ← isAt_runes (by decide)]
  by_cases scope : (isAt '.' after && isScopeWord (char b :: word.map char)) = true
  · have dot : isAt '.' after = true := (and_eq_true _ _ ▸ scope).1
    have front : (after.take 1).map char = ['.'] := by
      cases after with
      | nil => cases dot
      | cons d more => simpa [isAt] using dot
    rw [if_pos scope, if_pos scope, ← runes_drop (by decide) dot, onASCII_startsWord.head,
      ← onASCII_continuesWord.takeWhile, ← onASCII_continuesWord.dropWhile]
    split
    · simp [front]
    · simp [front]
  · rw [if_neg scope, if_neg scope]

end Words

section Numbers

theorem numberText_runes (text : Text) (hasDecimal hasExponent : Bool) (enough : rest.length ≤ rounds) :
    ((numberText rounds text hasDecimal hasExponent rest).toOption.map fun (text, isReal, after) =>
        (text.map char, isReal, runes after)) =
      (Lexing.scanNumber hasDecimal hasExponent false (runes rest)).map fun (more, isReal, after) =>
        (text.map char ++ more, isReal, after) := by
  induction rounds generalizing rest text hasDecimal hasExponent with
  | zero =>
    obtain rfl : rest = [] := length_eq_zero_iff.mp (by omega)
    simp [numberText, Lexing.scanNumber, toOption]
  | succ rounds ih =>
    -- what is scanned after a byte joins the text before it
    have joins (b : UInt8) (dec exp : Bool) (rest : Text) (fewer : rest.length ≤ rounds) :
        ((numberText rounds (text ++ [b]) dec exp rest).toOption.map fun (text, isReal, after) =>
            (text.map char, isReal, runes after)) =
          ((Lexing.scanNumber dec exp false (runes rest)).map (prepend (char b))).map fun (more, isReal, after) =>
            (text.map char ++ more, isReal, after) := by
      rw [ih _ dec exp fewer, Option.map_map, map_append]
      simp only [append_assoc]
      rfl
    cases rest with
    | nil => simp [numberText, Lexing.scanNumber, toOption]
    | cons b rest =>
      rw [length_cons] at enough
      have point : OnASCII (· == '.') := onASCII_beq (by decide)
      have letter : OnASCII fun c => c == 'e' || c == 'E' :=
        (onASCII_beq (by decide)).or (onASCII_beq (by decide))
      have signs : OnASCII fun c => c == '+' || c == '-' :=
        (onASCII_beq (by decide)).or (onASCII_beq (by decide))
      have ended : some ((text.map char : List Char), (hasDecimal || hasExponent), runes (b :: rest)) =
          some (text.map char ++ [], (hasDecimal || hasExponent), runes (b :: rest)) := by
        rw [append_nil]
      rw [numberText, Utf8.runes_cons, Lexing.scanNumber, onASCII_digit.decodeRune, point.decodeRune b rest,
        letter.decodeRune b rest]
      split
      next digit =>
        rw [onASCII_digit.decoded rest digit]
        exact joins b _ _ rest (by omega)
      split
      next decimal =>
        have dot : (char b == '.') = true := by
          simp only [and_eq_true] at decimal
          exact decimal.1.1
        rw [point.decoded rest dot, digitAt_runes]
        split
        · exact joins b _ _ rest (by omega)
        · rfl
      split
      next exponent =>
        have e : (char b == 'e' || char b == 'E') = true := by
          rw [and_eq_true] at exponent
          exact exponent.1
        rw [letter.decoded rest e, scanNumber_sign, signs.head]
        cases rest with
        | nil => exact joins b _ _ [] (by omega)
        | cons d after =>
          rw [length_cons] at enough
          change Option.map _ (toOption (if (char d == '+' || char d == '-') = true then _ else _)) =
            Option.map _ (Option.map _ (if (char d == '+' || char d == '-') = true then _ else _))
          split
          next signed =>
            have fewer : after.length ≤ rounds := by omega
            rw [signs.runes_cons after signed]
            have scanned := ih (text ++ [b, d]) true true fewer
            simp only [map_append, append_assoc] at scanned
            rw [Option.map_map, Option.map_map]
            exact scanned
          · exact joins b _ _ (d :: after) (by simp only [length_cons]; omega)
      rw [Bool.and_false, if_neg Bool.false_ne_true, ← Utf8.runes_cons]
      exact ended

/-- A token and what follows it, the bytes read as runes. -/
def Decodes (result : Except LexError (Token × Text)) (found : Option (Token × List Char)) : Prop :=
  (result.toOption.map fun (token, after) => (token, runes after)) = found

theorem scanNumber_decodes (parseFloat : Text → Option Float) (b : UInt8) (rest : Text) :
    Decodes (scanNumber parseFloat b rest) (scanNumberToken parseFloat (char b) (runes rest)) := by
  have scanned := numberText_runes [b] (char b == '.') false (Nat.le_refl rest.length)
  unfold Decodes scanNumber scanNumberToken
  cases found : numberText rest.length [b] (char b == '.') false rest with
  | error err =>
    rw [found] at scanned
    have missing := map_eq_none_iff.mp scanned.symm
    rw [missing]
    rfl
  | ok result =>
    obtain ⟨text, isReal, after⟩ := result
    rw [found] at scanned
    obtain ⟨⟨more, real, left⟩, taken, same⟩ := map_eq_some_iff.mp scanned.symm
    simp only [map_cons, map_nil, singleton_append, Prod.mk.injEq] at same
    obtain ⟨whole, rfl, rfl⟩ := same
    rw [taken, bind_some]
    dsimp only
    rw [whole]
    change Option.map _ (toOption (numberToken parseFloat (text.map char) real >>=
      fun token => pure (token, after))) = _
    cases numberToken parseFloat (text.map char) real <;> rfl

end Numbers

section Strings

theorem toOption_map (result : Except LexError α) (f : α → β) :
    (result.map f).toOption = result.toOption.map f := by
  cases result <;> rfl

theorem normalizeUTF8_runes (text : Text) : normalizeUTF8 text = encode (runes text) := by
  rw [normalizeUTF8]
  split
  next valid => exact (encode_runes valid).symm
  · rfl

theorem octalDigits_runes (room : Nat) (digits : List Char) (rest : Text) :
    ((octalDigits room digits rest).1, runes (octalDigits room digits rest).2) =
      (digits ++ (octalSpan room (runes rest)).1, (octalSpan room (runes rest)).2) := by
  induction room generalizing digits rest with
  | zero => simp [octalDigits, octalSpan]
  | succ room ih =>
    cases rest with
    | nil => simp [octalDigits, octalSpan]
    | cons b rest =>
      rw [octalDigits, Utf8.runes_cons, octalSpan, onASCII_octal.decodeRune]
      split
      next digit =>
        rw [ih, onASCII_octal.decoded rest digit, append_assoc]
        rfl
      · rw [append_nil, Utf8.runes_cons]

theorem octalDigits_length (room : Nat) (digits : List Char) (rest : Text) :
    (octalDigits room digits rest).2.length ≤ rest.length := by
  induction room generalizing digits rest with
  | zero => exact le_rfl
  | succ room ih =>
    cases rest with
    | nil => exact le_rfl
    | cons b rest =>
      rw [octalDigits]
      split
      · exact Nat.le_succ_of_le (ih _ rest)
      · exact le_rfl

theorem onASCII_simpleEscape : OnASCII fun c => (simpleEscape c).isSome := by
  intro c simple
  unfold simpleEscape at simple
  dsimp only at simple
  split at simple <;> first | decide | cases simple

/-- A value scanned as runes after the bytes read of it. -/
def onto (value : Text) : List Char × List Char → Text × List Char :=
  fun (more, rest) => (value ++ encode more, rest)

theorem map_prepend_onto (value : Text) (c : Char) (found : Option (List Char × List Char)) :
    (found.map (prepend c)).map (onto value) = found.map (onto (value ++ encodeRune c)) := by
  rw [Option.map_map]
  congr 1
  funext ⟨more, rest⟩
  simp [onto, prepend, encode]

theorem escapeAt_length (found : escapeAt text = .ok (plain, after)) : after.length < text.length := by
  cases text with
  | nil => cases found
  | cons esc rest =>
    have shorter := octalDigits_length (maxDigits (char esc) - 1) [char esc] rest
    rw [length_cons]
    unfold escapeAt at found
    dsimp only at found
    split at found
    · cases found
      omega
    split at found
    · split at found
      · cases found
      · cases found
        omega
    · cases found

/-- An escape is read, and the string goes on after it. -/
theorem scanString_escape (text : Text) :
    Lexing.scanString .escape (runes text) = (escapeAt text).toOption.bind fun (plain, after) =>
        (Lexing.scanString .plain (runes after)).map (prepend plain) := by
  cases text with
  | nil => rfl
  | cons esc rest =>
    have same := onASCII_simpleEscape.decodeRune esc rest
    unfold escapeAt
    dsimp only at same ⊢
    cases simple : simpleEscape (char esc) with
    | some plain =>
      rw [onASCII_simpleEscape.runes_cons rest (by simp [simple]), Lexing.scanString, simple]
      rfl
    | none =>
      rw [simple, isSome_none, ← not_eq_true, not_isSome_iff_eq_none] at same
      dsimp only
      by_cases octal : isOctalDigit (char esc) = true
      · have digits := octalDigits_runes (maxDigits (char esc) - 1) [char esc] rest
        obtain ⟨first, second⟩ := Prod.mk.inj digits
        rw [onASCII_octal.runes_cons rest octal, Lexing.scanString, simple, if_pos octal]
        dsimp only
        rw [if_pos octal, scanString_octal, ← first, ← second]
        generalize octalDigits (maxDigits (char esc) - 1) [char esc] rest = found
        by_cases null : numeral 8 found.1 = 0
        · simp [null, octalChar, toOption]
        · simp [null, octalChar, toOption]
      · have other : ¬isOctalDigit (Utf8.decodeRune esc rest).1 = true := by rwa [onASCII_octal.decodeRune]
        rw [if_neg octal, Utf8.runes_cons, Lexing.scanString, same]
        dsimp only
        rw [if_neg other]
        rfl

theorem scanEscapes_runes (value : Text) (enough : text.length ≤ rounds) :
    ((scanEscapes rounds value text).toOption.map fun (value, after) => (value, runes after)) =
      (Lexing.scanString .plain (runes text)).map (onto value) := by
  have quotes : OnASCII (· == '"') := onASCII_beq (by decide)
  have slashes : OnASCII (· == '\\') := onASCII_beq (by decide)
  induction rounds generalizing text value with
  | zero =>
    obtain rfl : text = [] := length_eq_zero_iff.mp (by omega)
    rfl
  | succ rounds ih =>
    cases text with
    | nil => rfl
    | cons b rest =>
      rw [length_cons] at enough
      rw [scanEscapes, Utf8.runes_cons, Lexing.scanString, quotes.decodeRune b rest, slashes.decodeRune b rest]
      split
      next quote =>
        rw [quotes.decoded rest quote]
        simp [onto, encode, toOption]
      split
      next backslash =>
        rw [slashes.decoded rest backslash, scanString_escape]
        cases found : escapeAt rest with
        | error err => rfl
        | ok result =>
          have shorter := escapeAt_length found
          change _ = Option.map (onto value) (Option.map _ _)
          rw [map_prepend_onto]
          exact ih _ (by omega)
      · have shorter := decodeRune_length b rest
        rw [map_prepend_onto]
        exact ih _ (by omega)

/-- The runes before the first quote and the first backslash are part of a string as they
are. -/
theorem scanString_plain (rest : List Char) (inside : ∀ c ∈ front, (c == '"' || c == '\\') = false) :
    Lexing.scanString .plain (front ++ rest) =
      (Lexing.scanString .plain rest).map fun (more, after) => (front ++ more, after) := by
  induction front with
  | nil => exact map_id'.symm
  | cons c front ih =>
    have plain := inside c (.head _)
    rw [or_eq_false_iff] at plain
    rw [cons_append, Lexing.scanString, plain.1, plain.2, ih fun d member => inside d (.tail _ member)]
    simp only [false_eq_true, if_false, Option.map_map]
    rfl

/-- What is scanned after the runes of a first part makes one token with them. -/
theorem decodes_onto (token : Text → Token) {result : Except LexError (Text × Text)}
    {found : Option (List Char × List Char)}
    (scanned : (result.toOption.map fun (value, after) => (value, runes after)) = found.map (onto (encode plain))) :
    Decodes (result.map fun (value, after) => (token value, after))
      ((found.map fun (more, after) => (plain ++ more, after)).map
        fun (value, after) => (token (encode value), after)) := by
  have joined := congrArg (Option.map fun (scanned : Text × List Char) => (token scanned.1, scanned.2)) scanned
  unfold Decodes
  rw [toOption_map, Option.map_map, Option.map_map]
  rw [Option.map_map, Option.map_map] at joined
  refine joined.trans ?_
  congr 1
  funext scanned
  obtain ⟨more, rest⟩ := scanned
  simp [onto, encode]

theorem scanString_decodes (rest : Text) :
    Decodes (scanString rest)
      ((Lexing.scanString .plain (runes rest)).map fun (value, after) => (.string (encode value), after)) := by
  have stops : OnASCII fun c => c == '"' || c == '\\' := (onASCII_beq (by decide)).or (onASCII_beq (by decide))
  have same : (fun b => char b != '"' && char b != '\\') = fun b => !(char b == '"' || char b == '\\') := by
    funext b
    simp [bne]
  unfold Decodes scanString
  rw [same]
  cases stopped : rest.dropWhile fun b => !(char b == '"' || char b == '\\') with
  | nil =>
    have plain := scanString_plain [] (stops.never stopped)
    rw [append_nil] at plain
    rw [plain]
    rfl
  | cons b after =>
    obtain ⟨special, whole, inside⟩ := stops.split stopped
    dsimp only
    rw [whole, scanString_plain _ inside, normalizeUTF8_runes]
    by_cases quote : (char b == '"') = true
    · rw [if_pos quote, Lexing.scanString, if_pos quote]
      simp [toOption]
    · rw [if_neg quote]
      have scanned := scanEscapes_runes (encode (runes (rest.takeWhile fun b => !(char b == '"' || char b == '\\'))))
        (Nat.le_refl (b :: after).length)
      rw [stops.runes_cons after special] at scanned
      exact decodes_onto .string scanned

theorem onASCII_endsName : OnASCII endsName :=
  ((onASCII_beq (by decide)).or (onASCII_beq (by decide))).or (onASCII_beq (by decide))

theorem scanNameEscapes_runes (name : Text) (enough : text.length ≤ rounds) :
    ((scanNameEscapes rounds name text).toOption.map fun (name, after) => (name, runes after)) =
      (Lexing.scanQuotedIdentifier false (runes text)).map (onto name) := by
  have quotes : OnASCII (· == '\'') := onASCII_beq (by decide)
  have newlines : OnASCII (· == '\n') := onASCII_beq (by decide)
  have slashes : OnASCII (· == '\\') := onASCII_beq (by decide)
  induction rounds generalizing text name with
  | zero =>
    obtain rfl : text = [] := length_eq_zero_iff.mp (by omega)
    rfl
  | succ rounds ih =>
    cases text with
    | nil => rfl
    | cons b rest =>
      rw [length_cons] at enough
      have shorter := decodeRune_length b rest
      rw [scanNameEscapes, Utf8.runes_cons, Lexing.scanQuotedIdentifier, quotes.decodeRune b rest,
        newlines.decodeRune b rest, slashes.decodeRune b rest]
      split
      next quote =>
        rw [quotes.decoded rest quote]
        simp [onto, encode, toOption]
      split
      · rfl
      split
      next backslash =>
        rw [slashes.decoded rest backslash]
        cases rest with
        | nil => rfl
        | cons e after =>
          have fewer := decodeRune_length e after
          rw [length_cons] at enough
          have left : (Utf8.decodeRune e after).2.length ≤ rounds := by omega
          rw [Utf8.runes_cons, Lexing.scanQuotedIdentifier, map_prepend_onto]
          exact ih _ left
      · rw [map_prepend_onto]
        exact ih _ (by omega)

theorem scanQuotedIdentifier_plain (rest : List Char) (inside : ∀ c ∈ front, endsName c = false) :
    Lexing.scanQuotedIdentifier false (front ++ rest) =
      (Lexing.scanQuotedIdentifier false rest).map fun (more, after) => (front ++ more, after) := by
  induction front with
  | nil => exact map_id'.symm
  | cons c front ih =>
    have plain := inside c (.head _)
    rw [endsName, or_eq_false_iff, or_eq_false_iff] at plain
    rw [cons_append, Lexing.scanQuotedIdentifier, plain.1.1, plain.1.2, plain.2,
      ih fun d member => inside d (.tail _ member)]
    simp only [false_eq_true, if_false, Option.map_map]
    rfl

theorem scanQuotedIdentifier_decodes (rest : Text) :
    Decodes (scanQuotedIdentifier rest)
      ((Lexing.scanQuotedIdentifier false (runes rest)).map fun (name, after) =>
        (.identifier (encode name), after)) := by
  unfold Decodes scanQuotedIdentifier
  cases stopped : rest.dropWhile fun b => !endsName (char b) with
  | nil =>
    have plain := scanQuotedIdentifier_plain [] (onASCII_endsName.never stopped)
    rw [append_nil] at plain
    rw [plain]
    rfl
  | cons b after =>
    obtain ⟨special, whole, inside⟩ := onASCII_endsName.split stopped
    dsimp only
    rw [whole, scanQuotedIdentifier_plain _ inside, normalizeUTF8_runes]
    by_cases quote : (char b == '\'') = true
    · rw [if_pos quote, Lexing.scanQuotedIdentifier, if_pos quote]
      simp [toOption]
    rw [if_neg quote]
    by_cases newline : (char b == '\n') = true
    · rw [if_pos newline, Lexing.scanQuotedIdentifier, if_neg quote, if_pos newline]
      rfl
    · rw [if_neg newline]
      have scanned := scanNameEscapes_runes (encode (runes (rest.takeWhile fun b => !endsName (char b))))
        (Nat.le_refl (b :: after).length)
      rw [onASCII_endsName.runes_cons after special] at scanned
      exact decodes_onto .identifier scanned

end Strings

section Tokens

/-- The rules the byte lexer follows. -/
def rules (parseFloat : Text → Option Float) : Rules :=
  { parseFloat, lenientEscapes := false, keepsScopeDot := true }

theorem decodes_symbol (token : Token) (rest : Text) : Decodes (.ok (token, rest)) (some (token, runes rest)) :=
  rfl

/-- A symbol that takes the next byte if it is a given one. -/
theorem decodes_lookahead (small : c.toNat < 0x80)
    (left : runes (rest.drop 1) = (runes rest).tail → Decodes present (some yes))
    (right : Decodes absent (some no)) :
    Decodes (if isAt c rest then present else absent) (some (if follows c (runes rest) then yes else no)) := by
  rw [← isAt_runes small]
  split
  next there => exact left (runes_drop small there)
  · exact right

theorem decodes_taken (token : Token) (tail : runes (rest.drop 1) = (runes rest).tail) :
    Decodes (.ok (token, rest.drop 1)) (some (token, (runes rest).tail)) := by
  rw [← tail]
  rfl

/-- A symbol that takes the next two bytes if they are given ones. -/
theorem decodes_lookahead_two (small : c.toNat < 0x80) (smaller : d.toNat < 0x80) (token : Token)
    (right : Decodes absent (some no)) :
    Decodes (if isAt c rest && isAt d (rest.drop 1) then .ok (token, rest.drop 2) else absent)
      (some (if follows c (runes rest) && follows d (runes rest).tail then (token, (runes rest).tail.tail)
        else no)) := by
  rw [← isAt_runes small]
  cases there : isAt c rest with
  | false => exact right
  | true =>
    have tail := runes_drop small there
    rw [Bool.true_and, Bool.true_and, ← tail]
    refine decodes_lookahead smaller (fun tail => ?_) right
    rw [← tail, drop_drop]
    rfl

variable (parseFloat : Text → Option Float)

theorem lexFrom_ascii (b : UInt8) (rest : Text) :
    Decodes (lexFrom parseFloat b rest) (scanToken (rules parseFloat) (char b) (runes rest)) := by
  unfold lexFrom
  split
  case h_17 first =>
    rw [first]
    exact decodes_lookahead (by decide) (decodes_taken _) (decodes_symbol _ rest)
  case h_18 first =>
    rw [first]
    change Decodes _ (if (runes rest).head?.any isASCIIDigit then _ else _)
    rw [← digitAt_runes]
    split
    · have scanned := scanNumber_decodes parseFloat b rest
      rwa [first] at scanned
    · exact decodes_symbol _ rest
  case h_19 first =>
    rw [first]
    exact scanString_decodes rest
  case h_20 first =>
    rw [first]
    exact scanQuotedIdentifier_decodes rest
  case h_21 first =>
    rw [first]
    exact decodes_lookahead (by decide) (decodes_taken _)
      (decodes_lookahead_two (by decide) (by decide) _
        (decodes_lookahead_two (by decide) (by decide) _ (decodes_symbol _ rest)))
  case h_22 first =>
    rw [first]
    exact decodes_lookahead (by decide) (decodes_taken _) (decodes_symbol _ rest)
  case h_23 first =>
    rw [first]
    exact decodes_lookahead (by decide) (decodes_taken _)
      (decodes_lookahead (by decide) (decodes_taken _) (decodes_symbol _ rest))
  case h_24 first =>
    rw [first]
    refine decodes_lookahead (by decide) (decodes_taken _)
      (decodes_lookahead (by decide) (fun tail => ?_) (decodes_symbol _ rest))
    rw [← tail]
    refine decodes_lookahead (by decide) (fun tail => ?_) (decodes_symbol _ _)
    rw [← tail, drop_drop]
    rfl
  case h_25 first =>
    rw [first]
    exact decodes_lookahead (by decide) (decodes_taken _) (decodes_symbol _ rest)
  case h_26 first =>
    rw [first]
    exact decodes_lookahead (by decide) (decodes_taken _) (decodes_symbol _ rest)
  case h_27 =>
    have noSymbol : scanSymbol (char b) (runes rest) = none := by
      unfold scanSymbol
      split <;> first | rfl | contradiction
    have noQuote : (char b == '"') = false := beq_false_of_ne (by assumption)
    have noName : (char b == '\'') = false := beq_false_of_ne (by assumption)
    have noPoint : (char b == '.') = false := beq_false_of_ne (by assumption)
    rw [scanToken, noQuote, noName, noPoint, Bool.false_and, Bool.or_false, noSymbol, if_neg Bool.false_ne_true,
      if_neg Bool.false_ne_true]
    split
    · exact scanNumber_decodes parseFloat b rest
    split
    · exact congrArg some (scanIdentifierOrKeyword_runes b rest)
    · rfl
  all_goals
    next first =>
      rw [first]
      exact decodes_symbol _ rest

/-- No token starts with a character that is not ASCII. -/
theorem scanToken_large (rules : Rules) (rest : List Char) (large : 0x80 ≤ c.toNat) :
    scanToken rules c rest = none := by
  have other (d : Char) (small : d.toNat < 0x80) : (c == d) = false := (onASCII_beq small).refuses large
  rw [scanToken,
    other '"' (by decide), other '\'' (by decide), onASCII_digit.refuses large, onASCII_startsWord.refuses large,
    other '.' (by decide)]
  change scanSymbol c rest = none
  unfold scanSymbol
  split <;> first | rfl | exact absurd large (by decide)

/-- A token is scanned from its first byte. -/
theorem lexFrom_decodes (b : UInt8) (rest : Text) :
    Decodes (lexFrom parseFloat b rest)
      (scanToken (rules parseFloat) (Utf8.decodeRune b rest).1 (runes (Utf8.decodeRune b rest).2)) := by
  by_cases small : b.toNat < 0x80
  · rw [decodeRune_ascii small]
    exact lexFrom_ascii parseFloat b rest
  · have large : 0x80 ≤ b.toNat := by omega
    have refused := lexFrom_ascii parseFloat b rest
    rw [scanToken_large _ _ (decodeRune_long rest large)]
    rwa [scanToken_large _ _ (char_toNat b ▸ large)] at refused

/-- `Next` reads the runes of the text. -/
theorem next_decodes (text : Text) :
    Decodes (next parseFloat text) (Lexing.next (rules parseFloat) (runes text)) := by
  have skipped := skipTrivia_runes (Nat.le_refl text.length)
  unfold Decodes next Lexing.next
  rw [← skipped]
  cases skipTrivia text.length text with
  | error err => rfl
  | ok rest =>
    cases rest with
    | nil => rfl
    | cons b rest =>
      have first := lexFrom_decodes parseFloat b rest
      change _ = bind (some (runes (b :: rest))) _
      rw [Utf8.runes_cons]
      exact first

end Tokens

end Classad.ByteLexer

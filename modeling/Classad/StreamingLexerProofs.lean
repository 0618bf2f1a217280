import Mathlib
import Classad.StreamingLexer
import Classad.LexingProofs

/-! The streaming lexer cuts its text as `Lexing` says, the dot of a bare scope word dropped.
What a function of it does is told by the runes ahead: the staged one and the reader's. -/
namespace Classad.StreamingLexer
open Ast Lexing List

section Rules
variable {α β : Type}

/-- The runes ahead. -/
def view (l : State) : List Char := l.pending.toList ++ l.reader

/-- On these runes ahead a function returns a value and leaves others ahead, or reports an
error. -/
def Scans (m : Lex α) (input : List Char) (outcome : Option (α × List Char)) : Prop :=
  ∀ l, view l = input → l.err = none →
    match outcome with
    | some (a, rest) => (m l).1 = a ∧ view (m l).2 = rest ∧ (m l).2.err = none
    | none => (m l).2.err ≠ none

/-- An error reported stays reported. -/
def Keeps (m : Lex α) : Prop := ∀ l, l.err ≠ none → (m l).2.err ≠ none

theorem Scans.pure (a : α) (input : List Char) : Scans (Pure.pure a) input (some (a, input)) :=
  fun _ ahead quiet => ⟨rfl, ahead, quiet⟩

variable {input : List Char} {f : α → Lex β}

theorem Scans.bind {m : Lex α}
    (left : Scans m input (some (a, mid))) (right : Scans (f a) mid outcome) : Scans (m >>= f) input outcome := by
  intro l ahead quiet
  obtain ⟨value, rest, still⟩ := left l ahead quiet
  have run : (m >>= f) l = f a (m l).2 := by
    change f (m l).1 (m l).2 = _
    rw [value]
  rw [run]
  exact right (m l).2 rest still

theorem Scans.abort (left : Scans m input none)
    (keeps : ∀ a, Keeps (f a)) : Scans (m >>= f) input none :=
  fun l ahead quiet => keeps (m l).1 (m l).2 (left l ahead quiet)

theorem Scans.get {f : State → Lex α}
    (right : ∀ l, view l = input → Scans (f l) input outcome) : Scans (MonadState.get >>= f) input outcome :=
  fun l ahead quiet => right l ahead l ahead quiet

/-- A value computed from the result of a function. -/
theorem Scans.map (f : α → β)
    (left : Scans m input outcome) :
    Scans (m >>= fun a => Pure.pure (f a)) input (outcome.map fun (a, rest) => (f a, rest)) := by
  cases outcome with
  | none => exact left.abort fun _ _ bad => bad
  | some found => exact left.bind (Scans.pure (f found.1) found.2)

/-- A function that branches as its outcome does. -/
theorem Scans.ite {f : γ → Option (α × List Char)} [Decidable p]
    (yes : p → Scans m input (f a)) (no : ¬p → Scans n input (f b)) :
    Scans (if p then m else n) input (f (if p then a else b)) := by
  split
  next holds =>
    exact yes holds
  next holds =>
    exact no holds

theorem Keeps.pure (a : α) : Keeps (Pure.pure a : Lex α) := fun _ bad => bad

theorem Keeps.bind {m : Lex α} (left : Keeps m) (right : ∀ a, Keeps (f a)) : Keeps (m >>= f) :=
  fun l bad => right (m l).1 (m l).2 (left l bad)

/-- A function that reports no error. -/
def Silent (m : Lex α) : Prop := ∀ l, (m l).2.err = l.err

theorem Silent.pure (a : α) : Silent (Pure.pure a : Lex α) := fun _ => rfl

theorem Silent.bind {m : Lex α} (left : Silent m) (right : ∀ a, Silent (f a)) : Silent (m >>= f) :=
  fun l => (right (m l).1 (m l).2).trans (left l)

theorem Silent.keeps (silent : Silent m) : Keeps m := by
  intro l bad
  rwa [silent l]

/-- A function that reports no error when it succeeds. -/
def Honest (m : Lex Bool) : Prop := ∀ l, (m l).1 = true → (m l).2.err = l.err

theorem Silent.honest (silent : Silent m) : Honest m := fun l _ => silent l

theorem Honest.bind {m : Lex α} {f : α → Lex Bool} (left : Silent m) (right : ∀ a, Honest (f a)) : Honest (m >>= f) :=
  fun l done => (right (m l).1 (m l).2 done).trans (left l)

theorem Honest.false : Honest (m >>= fun _ => Pure.pure false) :=
  fun _ done => nomatch done

theorem Honest.both (left : Honest m) (right : Honest n) :
    Honest (m >>= fun done => if done then n else Pure.pure Bool.false) := by
  intro l done
  cases first : (m l).1 with
  | false =>
    change ((if (m l).1 = true then n else Pure.pure Bool.false) (m l).2).1 = true at done
    rw [first] at done
    cases done
  | true =>
    have run : (m >>= fun done => if done then n else Pure.pure Bool.false) l = n (m l).2 := by
      change (if (m l).1 = true then n else Pure.pure Bool.false) (m l).2 = _
      rw [first, if_pos rfl]
    rw [run] at done ⊢
    exact (right _ done).trans (left l first)

/-- Where a function that is honest has failed, what is done on success does not matter. -/
theorem Scans.failed {m : Lex Bool} {f : Bool → Lex β} (left : Scans m input none)
    (honest : Honest m) (stops : f Bool.false = Pure.pure b) : Scans (m >>= f) input none := by
  intro l ahead quiet
  have bad := left l ahead quiet
  have value : (m l).1 = Bool.false := by
    by_contra done
    exact bad ((honest l (by simpa using done)).trans quiet)
  have run : (m >>= f) l = (b, (m l).2) := by
    change f (m l).1 (m l).2 = _
    rw [value, stops]
    rfl
  rw [run]
  exact bad

variable (err : LexError)

theorem scans_fail : Scans (fail err) input none :=
  fun _ _ _ bad => nomatch bad

theorem keeps_fail : Keeps (fail err) := fun _ _ bad => nomatch bad

theorem scans_fail_pure (a : α) (input : List Char) :
    Scans (fail err >>= fun _ => Pure.pure a) input none :=
  (scans_fail err).abort fun _ => Keeps.pure a

end Rules

section Reading

theorem scans_readRune : Scans readRune input (some (input.head?, input.tail)) := by
  rintro ⟨reader, pending, seen, err⟩ rfl quiet
  cases pending with
  | some ch => exact ⟨rfl, rfl, quiet⟩
  | none =>
    cases reader with
    | nil => exact ⟨rfl, rfl, quiet⟩
    | cons ch rest => exact ⟨rfl, rfl, quiet⟩

theorem scans_peekRune : Scans peekRune input (some (input.head?, input)) := by
  rintro ⟨reader, pending, seen, err⟩ rfl quiet
  cases pending with
  | some ch => exact ⟨rfl, rfl, quiet⟩
  | none =>
    cases reader with
    | nil => exact ⟨rfl, rfl, quiet⟩
    | cons ch rest => exact ⟨rfl, rfl, quiet⟩

theorem scans_discardRune : Scans discardRune input (some ((), input.tail)) :=
  (scans_readRune).bind (Scans.pure () input.tail)

theorem silent_readRune : Silent readRune := by
  rintro ⟨reader, pending, seen, err⟩
  cases pending with
  | some ch => rfl
  | none => cases reader <;> rfl

theorem silent_peekRune : Silent peekRune := by
  rintro ⟨reader, pending, seen, err⟩
  cases pending with
  | some ch => rfl
  | none => cases reader <;> rfl

theorem silent_peekRuneRaw : Silent peekRuneRaw := by
  rintro ⟨reader, pending, seen, err⟩
  cases pending <;> rfl

theorem silent_stage (ch : Char) : Silent (stage ch) := fun _ => rfl

theorem silent_discardRune : Silent discardRune :=
  silent_readRune.bind fun _ => Silent.pure ()

/-- What a function does when no rune is staged. -/
def ScansClear {α : Type} (m : Lex α) (input : List Char) (outcome : Option (α × List Char)) : Prop :=
  ∀ l, l.pending = none → view l = input → l.err = none →
    match outcome with
    | some (a, rest) => (m l).1 = a ∧ view (m l).2 = rest ∧ (m l).2.err = none
    | none => (m l).2.err ≠ none

variable {input : List Char}

theorem Scans.clear
    (scans : Scans m input outcome) : ScansClear m input outcome :=
  fun l _ ahead quiet => scans l ahead quiet

variable {β : Type} {outcome : Option (β × List Char)} {f : Option Char → Lex β}

/-- After a rune is consumed, or the input is found at its end, none is staged. -/
theorem ScansClear.read
    (right : ScansClear (f input.head?) input.tail outcome) : Scans (readRune >>= f) input outcome := by
  rintro ⟨reader, pending, seen, err⟩ rfl quiet
  cases pending with
  | some ch => exact right _ rfl rfl quiet
  | none =>
    cases reader with
    | nil => exact right _ rfl rfl quiet
    | cons ch rest => exact right _ rfl rfl quiet

theorem ScansClear.peekRaw
    (right : ScansClear (f input.head?) input outcome) : ScansClear (peekRuneRaw >>= f) input outcome := by
  rintro ⟨reader, _, seen, err⟩ rfl rfl quiet
  exact right _ rfl rfl quiet

/-- A rune staged after it was consumed is ahead again. -/
theorem ScansClear.stage {f : Unit → Lex β}
    (right : Scans (f ()) (ch :: input) outcome) :
    ScansClear (stage ch >>= f) input outcome := by
  rintro ⟨reader, _, seen, err⟩ rfl rfl quiet
  exact right _ rfl quiet

/-- Consume a rune or find the input at its end. -/
theorem Scans.read
    (right : Scans (f input.head?) input.tail outcome) : Scans (readRune >>= f) input outcome :=
  (scans_readRune).bind right

theorem Scans.peek
    (right : Scans (f input.head?) input outcome) : Scans (peekRune >>= f) input outcome :=
  (scans_peekRune).bind right

theorem Scans.discard {f : Unit → Lex β}
    (right : Scans (f ()) input.tail outcome) : Scans (discardRune >>= f) input outcome :=
  (scans_discardRune).bind right

theorem rounds_enough {l : State} (ahead : view l = input) : input.length < roundsOf l := by
  rw [← ahead, view, roundsOf]
  cases l.pending <;> simp

end Reading

section Trivia

variable {input : List Char}

theorem scans_skipLineComment {rounds : Nat} (enough : input.length < rounds) :
    Scans (skipLineComment rounds) input (some ((), afterLine input)) := by
  induction rounds generalizing input with
  | zero => omega
  | succ rounds ih =>
    apply Scans.read
    cases input with
    | nil => exact Scans.pure () []
    | cons c rest =>
      rw [length_cons] at enough
      rw [afterLine]
      change Scans (if c == '\n' then _ else _) rest _
      split
      · exact Scans.pure () rest
      · exact ih (by omega)

theorem scans_skipBlockComment {rounds : Nat} (enough : input.length < rounds) :
    Scans (skipBlockComment rounds) input ((afterBlock input).map fun rest => (true, rest)) := by
  induction rounds generalizing input with
  | zero => omega
  | succ rounds ih =>
    apply Scans.read
    cases input with
    | nil => exact scans_fail_pure _ false []
    | cons c rest =>
      rw [length_cons] at enough
      have goesOn : Scans (skipBlockComment rounds) rest ((afterBlock rest).map fun rest => (true, rest)) :=
        ih (by omega)
      rw [afterBlock]
      change Scans (if c == '*' then _ else _) rest _
      split
      next star =>
        rw [star, Bool.true_and]
        apply Scans.peek
        exact Scans.ite (f := Option.map _) (fun _ => Scans.discard (Scans.pure true rest.tail)) fun _ => goesOn
      next star =>
        have plain : (c == '*' && follows '/' rest) = false := by
          rw [Bool.not_eq_true] at star
          rw [star, Bool.false_and]
        rw [plain]
        exact goesOn

variable (rounds : Nat)

theorem silent_skipLineComment : Silent (skipLineComment rounds) := by
  induction rounds with
  | zero => exact Silent.pure ()
  | succ rounds ih =>
    apply silent_readRune.bind
    rintro (_ | c)
    · exact Silent.pure ()
    · change Silent (if c == '\n' then _ else _)
      split
      · exact Silent.pure ()
      · exact ih

theorem honest_skipBlockComment : Honest (skipBlockComment rounds) := by
  induction rounds with
  | zero => exact (Silent.pure false).honest
  | succ rounds ih =>
    apply Honest.bind silent_readRune
    rintro (_ | c)
    · exact Honest.false
    change Honest (if c == '*' then _ else _)
    split
    · apply Honest.bind silent_peekRune
      intro next
      split
      · exact (silent_discardRune.bind fun _ => Silent.pure true).honest
      · exact ih
    · exact ih

theorem honest_skipTrivia : Honest (skipTrivia rounds) := by
  induction rounds with
  | zero => exact (Silent.pure false).honest
  | succ rounds ih =>
    have staged (c : Char) : Honest (stage c >>= fun _ => Pure.pure true) :=
      ((silent_stage c).bind fun _ => Silent.pure true).honest
    apply Honest.bind silent_readRune
    rintro (_ | c)
    · exact (Silent.pure false).honest
    change Honest (if isSpace c then _ else if c == '/' then _ else _)
    split
    · exact ih
    split
    · apply Honest.bind silent_peekRuneRaw
      intro next
      split
      · exact Honest.bind silent_discardRune fun _ => Honest.bind (silent_skipLineComment rounds) fun _ => ih
      split
      · exact Honest.bind silent_discardRune fun _ => (honest_skipBlockComment rounds).both ih
      · exact staged c
    · exact staged c

/-- The rune after the trivia is staged. -/
theorem scans_skipTrivia {rounds : Nat} (enough : input.length < rounds) :
    Scans (skipTrivia rounds) input
      ((Lexing.skipTrivia .code input).map fun rest => (!rest.isEmpty, rest)) := by
  induction rounds generalizing input with
  | zero => omega
  | succ rounds ih =>
    apply ScansClear.read
    cases input with
    | nil => exact (Scans.pure false []).clear
    | cons c rest =>
      rw [length_cons] at enough
      rw [Lexing.skipTrivia]
      have staged : ScansClear (stage c >>= fun _ => Pure.pure true) rest (some (true, c :: rest)) :=
        ScansClear.stage (Scans.pure true (c :: rest))
      change ScansClear (if isSpace c then _ else if c == '/' then _ else _) rest _
      split
      · exact (ih (by omega)).clear
      split
      next slash =>
        rw [slash, Bool.true_and, Bool.true_and]
        apply ScansClear.peekRaw
        change ScansClear (if follows '/' rest then _ else if follows '*' rest then _ else _) rest _
        split
        next line =>
          rw [skipTrivia_slash line]
          have shorter := afterLine_length rest.tail
          have fewer : rest.tail.length ≤ rest.length := by simp
          apply Scans.clear
          apply Scans.discard
          exact (scans_skipLineComment (by omega)).bind (ih (by omega))
        split
        next block =>
          rw [skipTrivia_opening block]
          have fewer : rest.tail.length ≤ rest.length := by simp
          have skipped : Scans (skipBlockComment rounds) rest.tail _ := scans_skipBlockComment (by omega)
          apply Scans.clear
          apply Scans.discard
          cases closed : afterBlock rest.tail with
          | none =>
            rw [closed] at skipped
            exact skipped.failed (honest_skipBlockComment rounds) rfl
          | some after =>
            have shorter := afterBlock_length closed
            rw [closed] at skipped
            exact skipped.bind (ih (by omega))
        exact staged
      next slash =>
        have plain : (c == '/') = false := by simpa using slash
        rw [plain, Bool.false_and, Bool.false_and]
        exact staged

end Trivia

section Words

theorem scans_scanWord (word : List Char) (enough : input.length < rounds) :
    Scans (scanWord rounds word) input
      (some (word ++ input.takeWhile continuesWord, input.dropWhile continuesWord)) := by
  induction rounds generalizing input word with
  | zero => omega
  | succ rounds ih =>
    apply Scans.peek
    cases input with
    | nil =>
      rw [takeWhile_nil, append_nil]
      exact Scans.pure word []
    | cons c rest =>
      rw [length_cons] at enough
      change Scans (if continuesWord c then _ else _) (c :: rest) _
      rw [takeWhile_cons, dropWhile_cons]
      split
      · apply Scans.discard
        have fewer : rest.length < rounds := by omega
        have scanned := ih (word ++ [c]) fewer
        rwa [append_assoc, singleton_append] at scanned
      · rw [append_nil]
        exact Scans.pure word (c :: rest)

theorem scans_scanIdentifierOrKeyword (first : Char) (input : List Char) :
    Scans (scanIdentifierOrKeyword first) input (some (Lexing.scanWord false first input)) := by
  apply Scans.get
  intro l ahead
  refine (scans_scanWord [first] (rounds_enough ahead)).bind ?_
  rw [singleton_append, Lexing.scanWord]
  generalize wordIs : first :: input.takeWhile continuesWord = word
  generalize restIs : input.dropWhile continuesWord = rest
  apply Scans.peek
  change Scans (if (follows '.' rest && isScopeWord word) = true then _ else _) rest _
  refine Scans.ite (f := some) (fun _ => ?_) fun _ => Scans.pure _ rest
  · apply Scans.discard
    apply Scans.peek
    cases name : rest.tail with
    | nil => exact Scans.pure _ []
    | cons d tail =>
      refine Scans.ite (f := some) (fun starts => ?_) fun _ => Scans.pure _ _
      · apply Scans.discard
        apply Scans.get
        intro l ahead
        have continues := continuesWord_startsWord starts
        have scanned := (scans_scanWord (word ++ ['.', d]) (rounds_enough ahead)).map classify
        rw [takeWhile_cons, dropWhile_cons, if_pos continues, if_pos continues]
        rwa [append_assoc] at scanned

/-- The text of a number, with what has been read of it. -/
theorem scans_scanNumber (text : List Char) (hasDecimal hasExponent : Bool)
    (enough : input.length < rounds) :
    Scans (scanNumber rounds text hasDecimal hasExponent) input
      ((Lexing.scanNumber hasDecimal hasExponent false input).map fun (more, isReal, rest) =>
        (some (text ++ more, isReal), rest)) := by
  induction rounds generalizing input text hasDecimal hasExponent with
  | zero => omega
  | succ rounds ih =>
    -- what is scanned after a character joins the text before it
    have joins (c : Char) (dec exp : Bool) (rest : List Char) (fewer : rest.length < rounds) :
        Scans (scanNumber rounds (text ++ [c]) dec exp) rest
          (((Lexing.scanNumber dec exp false rest).map (prepend c)).map fun (more, isReal, rest) =>
            (some (text ++ more, isReal), rest)) := by
      have scanned := ih (text ++ [c]) dec exp fewer
      simp only [append_assoc, singleton_append] at scanned
      rwa [Option.map_map]
    apply Scans.peek
    cases input with
    | nil =>
      have ended := Scans.pure (some (text, hasDecimal || hasExponent)) ([] : List Char)
      simpa [Lexing.scanNumber] using ended
    | cons c rest =>
      rw [length_cons] at enough
      change Scans (if isASCIIDigit c then _ else if (c == '.' && !hasDecimal && !hasExponent) = true then _
        else if ((c == 'e' || c == 'E') && !hasExponent) = true then _ else _) (c :: rest) _
      rw [Lexing.scanNumber]
      refine Scans.ite (f := Option.map _) (fun _ => Scans.discard (joins c _ _ rest (by omega))) fun _ => ?_
      refine Scans.ite (f := Option.map _) (fun _ => ?_) fun _ =>
        Scans.ite (f := Option.map _) (fun _ => ?_) fun _ => ?_
      · apply Scans.discard
        apply Scans.peek
        exact Scans.ite (f := Option.map _) (fun _ => joins c _ _ rest (by omega)) fun _ => scans_fail_pure _ none rest
      · rw [scanNumber_sign]
        apply Scans.discard
        apply Scans.peek
        rw [tail_cons]
        cases rest with
        | nil => exact joins c _ _ [] (by simpa using enough)
        | cons sign after =>
          rw [length_cons] at enough
          refine Scans.ite (f := fun found => Option.map _ (Option.map _ found)) (fun _ => ?_) fun _ =>
            joins c _ _ (sign :: after) (by simp; omega)
          · apply Scans.discard
            have fewer : after.length < rounds := by omega
            have scanned := ih (text ++ [c, sign]) true true fewer
            simp only [append_assoc, cons_append, nil_append] at scanned
            rw [Option.map_map, Option.map_map]
            exact scanned
      · have ended := Scans.pure (some (text, hasDecimal || hasExponent)) (c :: rest)
        simpa using ended

theorem scans_numberAt (parseFloat : Text → Option Float) (first : Char) (input : List Char) :
    Scans (numberAt parseFloat first) input (scanNumberToken parseFloat first input) := by
  apply Scans.get
  intro l ahead
  have scanned := scans_scanNumber [first] (first == '.') false (rounds_enough ahead)
  rw [scanNumberToken]
  cases found : Lexing.scanNumber (first == '.') false false input with
  | none =>
    rw [found] at scanned
    apply scanned.abort
    rintro (_ | ⟨text, isReal⟩)
    · exact Keeps.pure _
    · dsimp only
      cases numberToken parseFloat text isReal with
      | ok token => exact Keeps.pure token
      | error err => exact (keeps_fail err).bind fun _ => Keeps.pure _
  | some result =>
    obtain ⟨text, isReal, rest⟩ := result
    rw [found] at scanned
    refine scanned.bind ?_
    dsimp only [Option.bind_some]
    rw [singleton_append]
    cases numberToken parseFloat (first :: text) isReal with
    | ok token => exact Scans.pure token rest
    | error err => exact scans_fail_pure err _ rest

end Words

section Strings

theorem scans_octalDigits (room : Nat) (digits input : List Char) :
    Scans (octalDigits room digits) input (some (digits ++ (octalSpan room input).1, (octalSpan room input).2)) := by
  induction room generalizing digits input with
  | zero =>
    rw [octalSpan, append_nil]
    exact Scans.pure digits input
  | succ room ih =>
    apply Scans.peek
    cases input with
    | nil =>
      rw [octalSpan, append_nil]
      exact Scans.pure digits []
    | cons c rest =>
      change Scans (if isOctalDigit c then _ else _) (c :: rest) _
      rw [octalSpan]
      split
      · apply Scans.discard
        have scanned := ih (digits ++ [c]) rest
        rwa [append_assoc, singleton_append] at scanned
      · rw [append_nil]
        exact Scans.pure digits (c :: rest)

theorem keeps_octalDigits (room : Nat) (digits : List Char) : Keeps (octalDigits room digits) := by
  induction room generalizing digits with
  | zero => exact Keeps.pure digits
  | succ room ih =>
    apply silent_peekRune.keeps.bind
    rintro (_ | c)
    · exact Keeps.pure digits
    change Keeps (if isOctalDigit c then _ else _)
    split
    · exact silent_discardRune.keeps.bind fun _ => ih _
    · exact Keeps.pure digits

/-- A string with an invalid escape is reported, however it goes on. -/
theorem keeps_scanString (lenient : Bool) (rounds : Nat) (result : List Char) :
    Keeps (scanString lenient rounds result) := by
  induction rounds generalizing result with
  | zero => exact Keeps.pure result
  | succ rounds ih =>
    have reported (err : LexError) : Keeps (fail err >>= fun _ => Pure.pure result) :=
      (keeps_fail err).bind fun _ => Keeps.pure result
    apply silent_readRune.keeps.bind
    rintro (_ | c)
    · exact reported _
    change Keeps (if c == '"' then _ else if c == '\\' then if lenient then _ else _ else _)
    split
    · exact Keeps.pure result
    split
    · split
      · apply silent_peekRune.keeps.bind
        intro next
        split
        · exact silent_discardRune.keeps.bind fun _ => ih _
        · exact ih _
      · apply silent_readRune.keeps.bind
        rintro (_ | e)
        · exact reported _
        dsimp only
        split
        · exact ih _
        split
        · apply (keeps_octalDigits _ _).bind
          intro digits
          split
          · exact reported _
          · exact ih _
        · exact (keeps_fail _).bind fun _ => ih _
    · exact ih _

/-- A value scanned after what has been read of a string. -/
def onto (result : List Char) : List Char × List Char → List Char × List Char :=
  fun (more, rest) => (result ++ more, rest)

variable (result : List Char)

theorem map_prepend_onto (c : Char) (found : Option (List Char × List Char)) :
    (found.map (prepend c)).map (onto result) = found.map (onto (result ++ [c])) := by
  rw [Option.map_map]
  congr 1
  funext ⟨more, rest⟩
  simp [onto, prepend]

theorem scans_ended (result rest : List Char) :
    Scans (Pure.pure result) rest ((some ([], rest)).map (onto result)) := by
  have ended := Scans.pure result rest
  simpa [onto] using ended

variable {input : List Char}

theorem scans_scanString (enough : input.length < rounds) :
    Scans (scanString false rounds result) input ((Lexing.scanString .plain input).map (onto result)) := by
  induction rounds generalizing input result with
  | zero => omega
  | succ rounds ih =>
    apply Scans.read
    cases input with
    | nil => exact scans_fail_pure _ result []
    | cons c rest =>
      rw [length_cons] at enough
      change Scans (if c == '"' then _ else if c == '\\' then _ else _) rest _
      rw [Lexing.scanString]
      refine Scans.ite (f := Option.map _) (fun _ => scans_ended result rest) fun _ => ?_
      refine Scans.ite (f := Option.map _) (fun _ => ?_) fun _ => ?_
      · apply Scans.read
        cases rest with
        | nil => exact scans_fail_pure _ result []
        | cons e after =>
          rw [length_cons] at enough
          rw [Lexing.scanString]
          dsimp only [head?_cons]
          cases simple : simpleEscape e with
          | some plain =>
            dsimp only
            rw [map_prepend_onto]
            exact ih _ (by simp only [tail_cons]; omega)
          | none =>
            dsimp only
            refine Scans.ite (f := Option.map _) (fun _ => ?_) fun _ => ?_
            · rw [scanString_octal]
              refine (scans_octalDigits _ [e] after).bind ?_
              have shorter := octalSpan_length (maxDigits e - 1) after
              generalize octalSpan (maxDigits e - 1) after = found at shorter ⊢
              by_cases null : numeral 8 ([e] ++ found.1) = 0
              · simp only [null, octalChar, if_true, beq_self_eq_true]
                exact scans_fail_pure _ result _
              · simp only [octalChar, if_neg null, Option.bind_some, beq_iff_eq]
                rw [map_prepend_onto]
                exact ih _ (by omega)
            · exact (scans_fail _).abort fun _ => keeps_scanString _ _ _
      · rw [map_prepend_onto]
        exact ih _ (by omega)

theorem map_onto_nil (found : Option (List Char × List Char)) : found.map (onto []) = found :=
  Option.map_id'

theorem scanStringOld_escaped (quote : follows '"' text = true) :
    scanStringOld true text = (scanStringOld false text.tail).map (prepend '"') := by
  cases text with
  | nil => cases quote
  | cons c rest =>
    obtain rfl : c = '"' := by simpa [follows] using quote
    rfl

theorem scans_scanStringOld (enough : input.length < rounds) :
    Scans (scanString true rounds result) input ((scanStringOld false input).map (onto result)) := by
  induction rounds generalizing input result with
  | zero => omega
  | succ rounds ih =>
    apply Scans.read
    cases input with
    | nil => exact scans_fail_pure _ result []
    | cons c rest =>
      rw [length_cons] at enough
      change Scans (if c == '"' then _ else if c == '\\' then _ else _) rest _
      rw [scanStringOld, Bool.not_false, Bool.and_true]
      refine Scans.ite (f := Option.map _) (fun _ => scans_ended result rest) fun _ => ?_
      split
      next backslash =>
        rw [backslash, Bool.true_and]
        apply Scans.peek
        refine Scans.ite (f := Option.map _) (fun quoted => ?_) fun _ => ?_
        · rw [scanStringOld_escaped quoted, map_prepend_onto]
          have fewer : rest.tail.length ≤ rest.length := by simp
          exact Scans.discard (ih _ (by omega))
        · obtain rfl : c = '\\' := by simpa using backslash
          rw [map_prepend_onto]
          exact ih _ (by omega)
      next backslash =>
        have plain : (c == '\\') = false := by simpa using backslash
        rw [plain, Bool.false_and, if_neg Bool.false_ne_true, map_prepend_onto]
        exact ih _ (by omega)

theorem scans_stringBody (lenient : Bool) {rounds : Nat} (enough : input.length < rounds) :
    Scans (scanString lenient rounds []) input
      ((if lenient then scanStringOld false else Lexing.scanString .plain) input) := by
  cases lenient with
  | true =>
    have scanned := scans_scanStringOld [] enough
    rwa [map_onto_nil] at scanned
  | false =>
    have scanned := scans_scanString [] enough
    rwa [map_onto_nil] at scanned

theorem scans_scanQuotedIdentifier {rounds : Nat} (name : List Char) (enough : input.length < rounds) :
    Scans (scanQuotedIdentifier rounds name) input
      (((Lexing.scanQuotedIdentifier false input).map (onto name)).map fun (name, rest) => (some name, rest)) := by
  induction rounds generalizing input name with
  | zero => omega
  | succ rounds ih =>
    apply Scans.read
    cases input with
    | nil => exact scans_fail_pure _ none []
    | cons c rest =>
      rw [length_cons] at enough
      change Scans (if c == '\'' then _ else if c == '\n' then _ else if c == '\\' then _ else _) rest _
      rw [Lexing.scanQuotedIdentifier]
      have ended : Scans (Pure.pure (some name)) rest (((some ([], rest)).map (onto name)).map _) :=
        Scans.map some (scans_ended name rest)
      refine Scans.ite (f := fun found => Option.map _ (Option.map _ found)) (fun _ => ended) fun _ => ?_
      refine Scans.ite (f := fun found => Option.map _ (Option.map _ found))
        (fun _ => scans_fail_pure _ none rest) fun _ => ?_
      refine Scans.ite (f := fun found => Option.map _ (Option.map _ found)) (fun _ => ?_) fun _ => ?_
      · apply Scans.read
        cases rest with
        | nil => exact scans_fail_pure _ none []
        | cons e after =>
          rw [length_cons] at enough
          rw [Lexing.scanQuotedIdentifier, map_prepend_onto]
          exact ih _ (by simp only [tail_cons]; omega)
      · rw [map_prepend_onto]
        exact ih _ (by omega)

end Strings

section Tokens

/-- The rules the streaming lexer follows. -/
def rules (parseFloat : Text → Option Float) (lenientEscapes : Bool) : Rules :=
  { parseFloat, lenientEscapes, keepsScopeDot := false }

theorem scans_accept (expected : Char) (input : List Char) :
    Scans (accept expected) input (some (if follows expected input then (true, input.tail) else (false, input))) := by
  apply Scans.peek
  change Scans (if follows expected input then _ else _) input _
  split
  · exact Scans.discard (Scans.pure true input.tail)
  · exact Scans.pure false input

/-- Two ways to go on, by whether a character is there. -/
theorem Scans.accept (left : Scans present input.tail (some yes)) (right : Scans absent input (some no)) :
    Scans (accept expected >>= fun found => if found then present else absent) input
      (some (if follows expected input then yes else no)) := by
  have accepted := scans_accept expected input
  split at accepted
  next there =>
    rw [if_pos there]
    exact accepted.bind left
  next missing =>
    rw [if_neg missing]
    exact accepted.bind right

theorem scanToken_name (rules : Rules) (rest : List Char) : scanToken rules '\'' rest =
    (Lexing.scanQuotedIdentifier false rest).map fun (name, after) => (.identifier (Utf8.encode name), after) := rfl

theorem scanToken_assign (rules : Rules) (rest : List Char) :
    scanToken rules '=' rest = scanSymbol '=' rest := rfl

section
variable (parseFloat : Text → Option Float) (lenient : Bool)

/-- The rune after `=?` or `=!` is looked at without staging it, and the second of the two
is pushed back when no `=` follows. -/
theorem scans_assign (input : List Char) :
    ScansClear (lexFrom parseFloat lenient '=') input (scanToken (rules parseFloat lenient) '=' input) := by
  rintro ⟨reader, _, seen, err⟩ rfl rfl quiet
  rw [scanToken_assign]
  match reader with
  | [] => exact ⟨rfl, rfl, quiet⟩
  | [c] =>
    by_cases equals : c = '=' <;> by_cases question : c = '?' <;> by_cases bang : c = '!' <;>
      simp_all [lexFrom, scanSymbol, view, follows, peekRune, discardRune, readRune, peekRuneRaw, unreadRune, bind,
        StateT.bind, pure, StateT.pure]
  | c :: d :: after =>
    by_cases equals : c = '=' <;> by_cases question : c = '?' <;> by_cases bang : c = '!' <;>
      by_cases second : d = '=' <;>
      simp_all [lexFrom, scanSymbol, view, follows, peekRune, discardRune, readRune, peekRuneRaw, unreadRune, bind,
        StateT.bind, pure, StateT.pure]

/-- A token is scanned after its first rune has been consumed. -/
theorem scans_lexFrom (ch : Char) (input : List Char) :
    ScansClear (lexFrom parseFloat lenient ch) input (scanToken (rules parseFloat lenient) ch input) := by
  by_cases assign : ch = '='
  · subst assign
    exact scans_assign parseFloat lenient input
  apply Scans.clear
  unfold lexFrom
  split
  case h_9 => exact Scans.accept (Scans.pure _ _) (Scans.pure _ _)
  case h_17 =>
    apply Scans.peek
    change Scans (if input.head?.any isASCIIDigit then _ else _) input
      (if input.head?.any isASCIIDigit then _ else _)
    split
    · exact scans_numberAt parseFloat '.' input
    · exact Scans.pure _ input
  case h_18 =>
    apply Scans.get
    intro l ahead
    exact (scans_stringBody lenient (rounds_enough ahead)).map _
  case h_19 =>
    apply Scans.get
    intro l ahead
    have scanned := scans_scanQuotedIdentifier [] (rounds_enough ahead)
    rw [map_onto_nil] at scanned
    rw [scanToken_name]
    cases found : Lexing.scanQuotedIdentifier false input with
    | none =>
      rw [found] at scanned
      apply scanned.abort
      rintro (_ | name)
      · exact Keeps.pure _
      · exact Keeps.pure _
    | some result =>
      rw [found] at scanned
      exact scanned.bind (Scans.pure _ result.2)
  case h_20 => exact absurd rfl assign
  case h_21 => exact Scans.accept (Scans.pure _ _) (Scans.pure _ _)
  case h_22 => exact Scans.accept (Scans.pure _ _) (Scans.accept (Scans.pure _ _) (Scans.pure _ _))
  case h_23 =>
    exact Scans.accept (Scans.pure _ _)
      (Scans.accept (Scans.accept (Scans.pure _ _) (Scans.pure _ _)) (Scans.pure _ _))
  case h_24 => exact Scans.accept (Scans.pure _ _) (Scans.pure _ _)
  case h_25 => exact Scans.accept (Scans.pure _ _) (Scans.pure _ _)
  case h_27 =>
    have noSymbol : scanSymbol ch input = none := by
      unfold scanSymbol
      split <;> first | rfl | contradiction
    have noQuote : (ch == '"') = false := beq_false_of_ne (by assumption)
    have noName : (ch == '\'') = false := beq_false_of_ne (by assumption)
    have noPoint : (ch == '.') = false := beq_false_of_ne (by assumption)
    rw [scanToken, noQuote, noName, noPoint, Bool.false_and, Bool.or_false, noSymbol, if_neg Bool.false_ne_true,
      if_neg Bool.false_ne_true]
    split
    · exact scans_numberAt parseFloat ch input
    split
    · exact scans_scanIdentifierOrKeyword ch input
    · exact scans_fail_pure _ _ input
  all_goals exact Scans.pure _ input

/-- The first token, and the runes ahead after it. -/
theorem scans_lex {input : List Char} :
    Scans (lex parseFloat lenient) input (Lexing.next (rules parseFloat lenient) input) := by
  apply Scans.get
  intro l ahead
  have skipped := scans_skipTrivia (rounds_enough ahead)
  rw [Lexing.next]
  cases found : Lexing.skipTrivia .code input with
  | none =>
    rw [found] at skipped
    exact skipped.failed (honest_skipTrivia _) rfl
  | some rest =>
    rw [found] at skipped
    refine skipped.bind ?_
    cases rest with
    | nil => exact Scans.pure _ []
    | cons c rest => exact ScansClear.read (scans_lexFrom parseFloat lenient c rest)

end

end Tokens

end Classad.StreamingLexer

import Classad.StreamingLexerProofs
import Classad.ByteLexerProofs

/-! The two lexers on one text. Both follow `Lexing`, and differ in one rule: the dot of a
scope word that no name follows is part of the byte lexer's token and is dropped by the
streaming lexer. -/
namespace Classad.Lexing
open Ast StreamingLexer Bool

section Streams
variable {σ τ : Type}

/-- Two lexers whose states stay related, and which return the same tokens, have the same
stream of tokens. -/
theorem collect_congr (Related : σ → τ → Prop)
    (step : ∀ s t, Related s t → Option.Rel (fun a b => a.1 = b.1 ∧ Related a.2 b.2) (left s) (right t))
    (count : Nat) (start : Related s t) : collect left count s = collect right count t := by
  induction count generalizing s t with
  | zero => rfl
  | succ count ih =>
    have next := step s t start
    rw [collect, collect]
    cases first : left s with
    | none =>
      rw [first] at next
      cases second : right t with
      | none => rfl
      | some found =>
        rw [second] at next
        cases next
    | some found =>
      rw [first] at next
      cases second : right t with
      | none =>
        rw [second] at next
        cases next
      | some other =>
        rw [second] at next
        obtain ⟨token, after⟩ := found
        obtain ⟨token', after'⟩ := other
        cases next with
        | some both =>
          obtain ⟨same, related⟩ := both
          subst same
          cases token with
          | eof => rfl
          | _ => dsimp only; rw [ih related]

variable (parseFloat : Text → Option Float)

/-- The byte lexer's tokens are those of the runes of its text. -/
theorem byteLexer_tokens (text : Text) :
    ByteLexer.tokens parseFloat text = collect (next (ByteLexer.rules parseFloat)) (text.length + 1)
    (Utf8.runes text) := by
  refine collect_congr (fun bytes runes => Utf8.runes bytes = runes) ?_ _ rfl
  rintro bytes _ rfl
  have decodes := ByteLexer.next_decodes parseFloat bytes
  rw [← decodes]
  cases (ByteLexer.next parseFloat bytes).toOption with
  | none => exact .none
  | some found => exact .some ⟨rfl, rfl⟩

/-- The streaming lexer's tokens are those of the runes it reads. -/
theorem streamingLexer_tokens (lenient : Bool) (text : Text) :
    StreamingLexer.tokens parseFloat lenient text =
      collect (next (rules parseFloat lenient)) (text.length + 1) (Utf8.runes text) := by
  refine collect_congr (fun l runes => view l = runes ∧ l.err = none) ?_ _ ⟨rfl, rfl⟩
  rintro l _ ⟨rfl, quiet⟩
  have scans := scans_lex parseFloat lenient l rfl quiet
  unfold StreamingLexer.next
  generalize lex parseFloat lenient l = out at scans
  obtain ⟨token, after⟩ := out
  cases found : next (rules parseFloat lenient) (view l) with
  | none =>
    rw [found] at scans
    dsimp only at scans ⊢
    cases reported : after.err with
    | none => exact absurd reported scans
    | some err => exact .none
  | some result =>
    rw [found] at scans
    obtain ⟨same, rest, still⟩ := scans
    dsimp only at still ⊢
    rw [still]
    exact .some ⟨same, rest, still⟩

end Streams

section Scopes

/-- A scope word and its dot, with no name after them. -/
def bareScope : List Char → Bool
  | [] => false
  | c :: rest =>
    startsWord c && follows '.' (rest.dropWhile continuesWord) && isScopeWord (c :: rest.takeWhile continuesWord) &&
      !(rest.dropWhile continuesWord).tail.head?.any startsWord

/-- One of the tokens of a text, before any lexical error, is a bare scope word. -/
inductive MeetsBareScope (rules : Rules) : List Char → Prop
  | here {text rest : List Char} : skipTrivia .code text = some rest → bareScope rest = true → MeetsBareScope rules text
  | later {text after : List Char} {token : Token} : next rules text = some (token, after) → token ≠ .eof →
      MeetsBareScope rules after → MeetsBareScope rules text

variable {parseFloat : Text → Option Float} {lenient : Bool}

/-- The token of a bare scope word, under either rule for its dot. -/
theorem scanToken_bareScope (bare : bareScope (c :: rest) = true) :
    scanToken ⟨parseFloat, lenient, keeps⟩ c rest =
      some (classify (if keeps then c :: rest.takeWhile continuesWord ++ ['.'] else c :: rest.takeWhile continuesWord),
        (rest.dropWhile continuesWord).tail) := by
  simp only [bareScope, and_eq_true, not_eq_true'] at bare
  obtain ⟨⟨⟨starts, dot⟩, scope⟩, nameless⟩ := bare
  rw [scanToken_word starts, scanWord, dot, scope]
  dsimp only [Bool.and_self, if_true]
  rw [nameless]
  rfl

/-- Other tokens do not depend on the rule for the dot. -/
theorem scanToken_otherwise (other : bareScope (c :: rest) = false) :
    scanToken ⟨parseFloat, lenient, true⟩ c rest = scanToken ⟨parseFloat, lenient, false⟩ c rest := by
  by_cases starts : startsWord c = true
  · rw [scanToken_word starts, scanToken_word starts, scanWord, scanWord]
    rw [bareScope, starts, Bool.true_and] at other
    split
    next scope =>
      rw [scope, Bool.true_and, not_eq_false'] at other
      rw [if_pos other, if_pos other]
    · rfl
  · rw [scanToken, scanToken, if_neg starts, if_neg starts]

/-- Where no bare scope word is ahead, the next token does not depend on the rule for the
dot. -/
theorem next_otherwise (other : ∀ rest, skipTrivia .code text = some rest → bareScope rest = false) :
    next ⟨parseFloat, lenient, true⟩ text = next ⟨parseFloat, lenient, false⟩ text := by
  rw [next, next]
  cases skipped : skipTrivia .code text with
  | none => rfl
  | some rest =>
    cases rest with
    | nil => rfl
    | cons c rest => exact scanToken_otherwise (other _ skipped)

/-- A scope word is no keyword, with its dot or without. -/
theorem classify_scope (scope : isScopeWord word = true) :
    classify word = .identifier (Utf8.encode word) ∧
      classify (word ++ ['.']) = .identifier (Utf8.encode (word ++ ['.'])) := by
  simp only [isScopeWord, or_eq_true, beq_iff_eq] at scope
  have dotted : (word ++ ['.']).map lowerChar = word.map lowerChar ++ ['.'] := List.map_append
  unfold classify
  rw [dotted]
  rcases scope with (my | target) | parent
  · rw [my]
    exact ⟨rfl, rfl⟩
  · rw [target]
    exact ⟨rfl, rfl⟩
  · rw [parent]
    exact ⟨rfl, rfl⟩

/-- The two lexers return different tokens for a bare scope word. -/
theorem next_differs (skipped : skipTrivia .code text = some rest) (bare : bareScope rest = true) :
    ∃ kept dropped after, next ⟨parseFloat, lenient, true⟩ text = some (.identifier kept, after) ∧
      next ⟨parseFloat, lenient, false⟩ text = some (.identifier dropped, after) ∧ kept ≠ dropped := by
  cases rest with
  | nil => cases bare
  | cons c rest =>
    have scope : isScopeWord (c :: rest.takeWhile continuesWord) = true := by
      simp only [bareScope, and_eq_true] at bare
      exact bare.1.2
    obtain ⟨plain, dotted⟩ := classify_scope scope
    refine ⟨Utf8.encode (c :: rest.takeWhile continuesWord ++ ['.']), Utf8.encode (c :: rest.takeWhile continuesWord),
      (rest.dropWhile continuesWord).tail, ?_, ?_, ?_⟩
    · rw [next, skipped, Option.bind_some, ← dotted]
      exact scanToken_bareScope bare
    · rw [next, skipped, Option.bind_some, ← plain]
      exact scanToken_bareScope bare
    · intro same
      have runes := congrArg Utf8.runes same
      have lengths := congrArg List.length runes
      simp at lengths

theorem collect_token {next : σ → Option (Token × σ)}
    (scanned : next state = some (token, after)) (more : token ≠ .eof) :
    collect next (count + 1) state = (token :: (collect next count after).1, (collect next count after).2) := by
  rw [collect, scanned]
  cases token with
  | eof => exact absurd rfl more
  | _ => rfl

theorem collect_differs (meets : MeetsBareScope ⟨parseFloat, lenient, true⟩ text)
    (enough : text.length < count) :
    collect (next ⟨parseFloat, lenient, true⟩) count text ≠ collect (next ⟨parseFloat, lenient, false⟩) count text := by
  -- the tokens before the first bare scope word agree, and the word's own do not
  have now {text rest : List Char} {count : Nat} (skipped : skipTrivia .code text = some rest)
      (bare : bareScope rest = true) : collect (next ⟨parseFloat, lenient, true⟩) (count + 1) text ≠
        collect (next ⟨parseFloat, lenient, false⟩) (count + 1) text := by
    obtain ⟨kept, dropped, after, left, right, different⟩ := next_differs skipped bare
    rw [collect_token left Token.noConfusion, collect_token right Token.noConfusion]
    intro same
    injection same with streams
    injection streams with heads
    injection heads with names
    exact different names
  induction meets generalizing count with
  | here skipped bare =>
    obtain ⟨count, rfl⟩ : ∃ fewer, count = fewer + 1 := ⟨count - 1, by omega⟩
    exact now skipped bare
  | @later text after token scanned more meets ih =>
    obtain ⟨count, rfl⟩ : ∃ fewer, count = fewer + 1 := ⟨count - 1, by omega⟩
    by_cases bare : ∃ rest, skipTrivia .code text = some rest ∧ bareScope rest = true
    · obtain ⟨rest, skipped, bare⟩ := bare
      exact now skipped bare
    · have same : next ⟨parseFloat, lenient, false⟩ text = some (token, after) := by
        rw [← scanned]
        refine (next_otherwise fun rest skipped => ?_).symm
        rw [eq_false_iff]
        exact fun found => bare ⟨rest, skipped, found⟩
      have shorter := next_length scanned more
      rw [collect_token scanned more, collect_token same more]
      intro both
      injection both with streams flags
      injection streams with _ tails
      have fewer : after.length < count := by omega
      exact ih fewer (Prod.ext tails flags)

theorem collect_agrees (never : ¬MeetsBareScope ⟨parseFloat, lenient, true⟩ text) (count : Nat) :
    collect (next ⟨parseFloat, lenient, true⟩) count text = collect (next ⟨parseFloat, lenient, false⟩) count text := by
  induction count generalizing text with
  | zero => rfl
  | succ count ih =>
    have same : next ⟨parseFloat, lenient, true⟩ text = next ⟨parseFloat, lenient, false⟩ text := by
      apply next_otherwise
      intro rest skipped
      rw [eq_false_iff]
      exact fun bare => never (.here skipped bare)
    cases scanned : next ⟨parseFloat, lenient, true⟩ text with
    | none => rw [collect, collect, ← same, scanned]
    | some found =>
      obtain ⟨token, after⟩ := found
      by_cases more : token = .eof
      · subst more
        rw [collect, collect, ← same, scanned]
      · have rest := ih fun meets => never (.later scanned more meets)
        rw [collect_token scanned more, collect_token (same ▸ scanned) more, rest]

/-- The two lexers return the same tokens up to the first error, and both report one or
neither does, exactly when no token is a bare scope word. -/
theorem lexers_agree_iff (parseFloat : Text → Option Float) (text : Text) :
    ByteLexer.tokens parseFloat text = StreamingLexer.tokens parseFloat false text ↔
      ¬MeetsBareScope (ByteLexer.rules parseFloat) (Utf8.runes text) := by
  have short := Utf8.runes_length text
  rw [byteLexer_tokens, streamingLexer_tokens]
  constructor
  · intro agree meets
    exact collect_differs meets (by omega) agree
  · intro never
    exact collect_agrees never _

/-- A scope word and its dot before an operator. -/
theorem lexers_differ_on_bare_scope :
    ByteLexer.tokens (fun _ => none) (ascii "MY. + 1") =
      ([.identifier (ascii "MY."), .symbol .plus, .integer 1], true) ∧
      StreamingLexer.tokens (fun _ => none) false (ascii "MY. + 1") =
        ([.identifier (ascii "MY"), .symbol .plus, .integer 1], true) := by
  decide +kernel

end Scopes

end Classad.Lexing

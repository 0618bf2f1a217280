import Classad.ByteParser

/-! UTF-8 text read rune by rune. A byte that starts no well-formed sequence is read on its
own, as the replacement character, so that every sequence of bytes is a sequence of runes. -/
namespace Classad.Utf8
open ByteParser
open List hiding after count

/-- What an ill-formed byte is read as. -/
def runeError : Char := '�'

/-- A rune's bytes. -/
def encodeRune (c : Char) : Bytes :=
  let n := c.toNat
  if n < 0x80 then [n.toUInt8]
  else if n < 0x800 then [(0xC0 + n / 64).toUInt8, (0x80 + n % 64).toUInt8]
  else if n < 0x10000 then
    [(0xE0 + n / 4096).toUInt8, (0x80 + n / 64 % 64).toUInt8, (0x80 + n % 64).toUInt8]
  else
    [(0xF0 + n / 262144).toUInt8, (0x80 + n / 4096 % 64).toUInt8, (0x80 + n / 64 % 64).toUInt8,
      (0x80 + n % 64).toUInt8]

def encode (cs : List Char) : Bytes := cs.flatMap encodeRune

def isContinuation (b : UInt8) : Bool := 0x80 ≤ b.toNat && b.toNat < 0xC0

/-- The bits read so far and those of one more byte. -/
def extend (high : Nat) (b : UInt8) : Nat := high * 64 + b.toNat % 64

/-- A value is accepted in its shortest form only, and only if it is a character. -/
def accept (least n : Nat) (rest : Bytes) : Option (Char × Bytes) :=
  if least ≤ n ∧ n.isValidChar then some (Char.ofNat n, rest) else none

/-- A well-formed sequence of two to four bytes. -/
def longRune (b0 : UInt8) : Bytes → Option (Char × Bytes)
  | [] => none
  | b1 :: r1 =>
    if b0.toNat < 0xC0 || !isContinuation b1 then none
    else if b0.toNat < 0xE0 then accept 0x80 (extend (b0.toNat % 32) b1) r1
    else
      match r1 with
      | [] => none
      | b2 :: r2 =>
        if !isContinuation b2 then none
        else if b0.toNat < 0xF0 then accept 0x800 (extend (extend (b0.toNat % 16) b1) b2) r2
        else
          match r2 with
          | [] => none
          | b3 :: r3 =>
            if !isContinuation b3 || 0xF8 ≤ b0.toNat then none
            else accept 0x10000 (extend (extend (extend (b0.toNat % 8) b1) b2) b3) r3

/-- `DecodeRune`: the first rune and what is left. -/
def decodeRune (b0 : UInt8) (rest : Bytes) : Char × Bytes :=
  if b0.toNat < 0x80 then (Char.ofNat b0.toNat, rest)
  else (longRune b0 rest).getD (runeError, rest)

/-- The runes of a text, at most so many. -/
def runesUpTo : Nat → Bytes → List Char
  | 0, _ => []
  | _ + 1, [] => []
  | more + 1, b :: rest => (decodeRune b rest).1 :: runesUpTo more (decodeRune b rest).2

def runes (bytes : Bytes) : List Char := runesUpTo bytes.length bytes

/-- `ValidString`, looking at so many runes. -/
def validUpTo : Nat → Bytes → Bool
  | 0, _ => true
  | _ + 1, [] => true
  | more + 1, b :: rest =>
    if b.toNat < 0x80 then validUpTo more rest
    else
      match longRune b rest with
      | none => false
      | some (_, after) => validUpTo more after

def validString (bytes : Bytes) : Bool := validUpTo bytes.length bytes

section Decoding

theorem toUInt8_toNat (small : n < 256) : n.toUInt8.toNat = n := by
  simpa using small

theorem accept_some (taken : accept least n rest = some found) :
    least ≤ n ∧ n.isValidChar ∧ found = (Char.ofNat n, rest) := by
  unfold accept at taken
  split at taken
  next allowed => exact ⟨allowed.1, allowed.2, (Option.some.inj taken).symm⟩
  · cases taken

theorem ofNat_toNat (valid : n.isValidChar) : (Char.ofNat n).toNat = n := by
  rw [Char.ofNat, dif_pos valid]
  rfl

theorem isContinuation_bounds (continues : isContinuation b = true) : 0x80 ≤ b.toNat ∧ b.toNat < 0xC0 := by
  simpa [isContinuation] using continues

private theorem toUInt8_of_eq (b : UInt8) (same : n = b.toNat) : n.toUInt8 = b := by
  rw [same]
  exact UInt8.ofNat_toNat

private theorem encodeRune_two (lead : 0xC0 ≤ b0.toNat) (short : b0.toNat < 0xE0)
    (first : isContinuation b1 = true) (valid : (extend (b0.toNat % 32) b1).isValidChar)
    (shortest : 0x80 ≤ extend (b0.toNat % 32) b1) : encodeRune (Char.ofNat (extend (b0.toNat % 32) b1)) = [b0, b1] := by
  have first := isContinuation_bounds first
  rw [encodeRune, ofNat_toNat valid]
  unfold extend at shortest ⊢
  rw [if_neg (by omega), if_pos (by omega), toUInt8_of_eq b0 (by omega), toUInt8_of_eq b1 (by omega)]

private theorem encodeRune_three (lead : 0xE0 ≤ b0.toNat) (short : b0.toNat < 0xF0)
    (first : isContinuation b1 = true) (second : isContinuation b2 = true)
    (valid : (extend (extend (b0.toNat % 16) b1) b2).isValidChar)
    (shortest : 0x800 ≤ extend (extend (b0.toNat % 16) b1) b2) :
    encodeRune (Char.ofNat (extend (extend (b0.toNat % 16) b1) b2)) = [b0, b1, b2] := by
  have first := isContinuation_bounds first
  have second := isContinuation_bounds second
  rw [encodeRune, ofNat_toNat valid]
  unfold extend at shortest ⊢
  rw [if_neg (by omega), if_neg (by omega), if_pos (by omega), toUInt8_of_eq b0 (by omega),
    toUInt8_of_eq b1 (by omega), toUInt8_of_eq b2 (by omega)]

private theorem encodeRune_four (lead : 0xF0 ≤ b0.toNat) (short : b0.toNat < 0xF8)
    (first : isContinuation b1 = true) (second : isContinuation b2 = true) (third : isContinuation b3 = true)
    (valid : (extend (extend (extend (b0.toNat % 8) b1) b2) b3).isValidChar)
    (shortest : 0x10000 ≤ extend (extend (extend (b0.toNat % 8) b1) b2) b3) :
    encodeRune (Char.ofNat (extend (extend (extend (b0.toNat % 8) b1) b2) b3)) = [b0, b1, b2, b3] := by
  have first := isContinuation_bounds first
  have second := isContinuation_bounds second
  have third := isContinuation_bounds third
  rw [encodeRune, ofNat_toNat valid]
  unfold extend at shortest ⊢
  rw [if_neg (by omega), if_neg (by omega), if_neg (by omega), toUInt8_of_eq b0 (by omega),
    toUInt8_of_eq b1 (by omega), toUInt8_of_eq b2 (by omega), toUInt8_of_eq b3 (by omega)]

/-- A well-formed sequence is the encoding of the rune it is read as. -/
theorem longRune_some (taken : longRune b0 rest = some found) :
    ∃ tail, rest = tail ++ found.2 ∧ encodeRune found.1 = b0 :: tail ∧ (∀ b ∈ tail, isContinuation b = true) ∧
      0x80 ≤ found.1.toNat := by
  unfold longRune at taken
  split at taken
  · cases taken
  next b1 r1 =>
  split at taken
  · cases taken
  next lead =>
  simp only [Bool.or_eq_true, decide_eq_true_eq, Bool.not_eq_true', not_or, Bool.not_eq_false] at lead
  obtain ⟨high, first⟩ := lead
  split at taken
  · obtain ⟨shortest, valid, rfl⟩ := accept_some taken
    refine ⟨[b1], rfl, encodeRune_two (by omega) (by omega) first valid shortest, by simpa using first, ?_⟩
    rwa [ofNat_toNat valid]
  split at taken
  · cases taken
  next b2 r2 =>
  split at taken
  · cases taken
  next second =>
  have second : isContinuation b2 = true := by simpa using second
  split at taken
  · obtain ⟨shortest, valid, rfl⟩ := accept_some taken
    refine ⟨[b1, b2], rfl, encodeRune_three (by omega) (by omega) first second valid shortest,
      by simp [first, second], ?_⟩
    rw [ofNat_toNat valid]
    omega
  split at taken
  · cases taken
  next b3 r3 =>
  split at taken
  · cases taken
  next third =>
  simp only [Bool.or_eq_true, Bool.not_eq_true', decide_eq_true_eq, not_or, Bool.not_eq_false] at third
  obtain ⟨shortest, valid, rfl⟩ := accept_some taken
  refine ⟨[b1, b2, b3], rfl, encodeRune_four (by omega) (by omega) first second third.1 valid shortest,
    by simp [first, second, third.1], ?_⟩
  rw [ofNat_toNat valid]
  omega

theorem decodeRune_ascii (small : b.toNat < 0x80) : decodeRune b rest = (Char.ofNat b.toNat, rest) := by
  rw [decodeRune, if_pos small]

/-- The runes of ASCII bytes are the bytes, and no other byte is read as an ASCII rune. -/
theorem decodeRune_long (rest : Bytes) (large : 0x80 ≤ b.toNat) : 0x80 ≤ (decodeRune b rest).1.toNat := by
  rw [decodeRune, if_neg (by omega)]
  cases taken : longRune b rest with
  | none =>
    change 0x80 ≤ runeError.toNat
    decide
  | some found =>
    obtain ⟨_, _, _, _, long⟩ := longRune_some taken
    exact long

/-- The bytes of a rune after its first are not ASCII. -/
theorem decodeRune_tail (b : UInt8) (rest : Bytes) :
    ∃ tail, rest = tail ++ (decodeRune b rest).2 ∧ ∀ c ∈ tail, 0x80 ≤ c.toNat := by
  rw [decodeRune]
  split
  · exact ⟨[], rfl, nofun⟩
  cases taken : longRune b rest with
  | none => exact ⟨[], rfl, nofun⟩
  | some found =>
    obtain ⟨tail, split, _, continues, _⟩ := longRune_some taken
    exact ⟨tail, split, fun c inside => (isContinuation_bounds (continues c inside)).1⟩

theorem decodeRune_length (b : UInt8) (rest : Bytes) : (decodeRune b rest).2.length ≤ rest.length := by
  obtain ⟨tail, split, _⟩ := decodeRune_tail b rest
  have count := congrArg length split
  rw [length_append] at count
  omega

variable (c : Char)

theorem isValidChar_toNat : c.toNat.isValidChar :=
  c.valid

private theorem accept_char (rest : Bytes) (same : n = c.toNat) (shortest : least ≤ n) :
    accept least n rest = some (c, rest) := by
  subst same
  rw [accept, if_pos ⟨shortest, isValidChar_toNat c⟩, Char.ofNat_toNat]

private theorem isContinuation_low (n : Nat) : isContinuation (0x80 + n % 64).toUInt8 = true := by
  have same := toUInt8_toNat (n := 0x80 + n % 64) (by omega)
  simp only [isContinuation, same, Bool.and_eq_true, decide_eq_true_eq]
  omega

private theorem toNat_lt : c.toNat < 0x110000 := by
  have valid := isValidChar_toNat c
  omega

/-- A rune is read back from its bytes, whatever comes after them. -/
theorem decodeRune_encodeRune : ∃ b tail, encodeRune c = b :: tail ∧
    ∀ rest, decodeRune b (tail ++ rest) = (c, rest) := by
  have bound := toNat_lt c
  rw [encodeRune]
  generalize number : c.toNat = n at bound ⊢
  split
  next small =>
    refine ⟨_, [], rfl, fun rest => ?_⟩
    have same := toUInt8_toNat (n := n) (by omega)
    rw [nil_append, decodeRune, if_pos (by omega), same, ← number, Char.ofNat_toNat]
  split
  next large small =>
    refine ⟨_, [_], rfl, fun rest => ?_⟩
    have same := toUInt8_toNat (n := 0xC0 + n / 64) (by omega)
    have low := toUInt8_toNat (n := 0x80 + n % 64) (by omega)
    have whole : extend ((0xC0 + n / 64).toUInt8.toNat % 32) (0x80 + n % 64).toUInt8 = c.toNat := by
      rw [extend, same, low]
      omega
    rw [decodeRune, if_neg (by omega)]
    simp only [cons_append, nil_append, longRune, isContinuation_low, same]
    rw [if_neg (by simp), if_pos (by omega), ← same, accept_char c rest whole (by omega)]
    rfl
  split
  next larger large small =>
    refine ⟨_, [_, _], rfl, fun rest => ?_⟩
    have same := toUInt8_toNat (n := 0xE0 + n / 4096) (by omega)
    have middle := toUInt8_toNat (n := 0x80 + n / 64 % 64) (by omega)
    have low := toUInt8_toNat (n := 0x80 + n % 64) (by omega)
    have whole : extend (extend ((0xE0 + n / 4096).toUInt8.toNat % 16) (0x80 + n / 64 % 64).toUInt8)
        (0x80 + n % 64).toUInt8 = c.toNat := by
      rw [extend, extend, same, middle, low]
      omega
    rw [decodeRune, if_neg (by omega)]
    simp only [cons_append, nil_append, longRune, isContinuation_low, same]
    rw [if_neg (by simp; omega), if_neg (by omega), if_neg (by simp), if_pos (by omega), ← same,
      accept_char c rest whole (by omega)]
    rfl
  · refine ⟨_, [_, _, _], rfl, fun rest => ?_⟩
    have same := toUInt8_toNat (n := 0xF0 + n / 262144) (by omega)
    have upper := toUInt8_toNat (n := 0x80 + n / 4096 % 64) (by omega)
    have middle := toUInt8_toNat (n := 0x80 + n / 64 % 64) (by omega)
    have low := toUInt8_toNat (n := 0x80 + n % 64) (by omega)
    have whole : extend (extend (extend ((0xF0 + n / 262144).toUInt8.toNat % 8) (0x80 + n / 4096 % 64).toUInt8)
        (0x80 + n / 64 % 64).toUInt8) (0x80 + n % 64).toUInt8 = c.toNat := by
      rw [extend, extend, extend, same, upper, middle, low]
      omega
    rw [decodeRune, if_neg (by omega)]
    simp only [cons_append, nil_append, longRune, isContinuation_low, same]
    rw [if_neg (by simp; omega), if_neg (by omega), if_neg (by simp), if_neg (by omega), if_neg (by simp; omega),
      ← same, accept_char c rest whole (by omega)]
    rfl

end Decoding

section Runes

private theorem runesUpTo_congr {few many : Nat} (left : bytes.length ≤ few) (right : bytes.length ≤ many) :
    runesUpTo few bytes = runesUpTo many bytes := by
  induction few generalizing bytes many with
  | zero =>
    obtain rfl : bytes = [] := length_eq_zero_iff.mp (by omega)
    cases many <;> rfl
  | succ few ih =>
    cases bytes with
    | nil => cases many <;> rfl
    | cons b rest =>
      rw [length_cons] at left right
      obtain ⟨many, rfl⟩ : ∃ fewer, many = fewer + 1 := ⟨many - 1, by omega⟩
      have shorter := decodeRune_length b rest
      have same : runesUpTo few (decodeRune b rest).2 = runesUpTo many (decodeRune b rest).2 :=
        ih (by omega) (by omega)
      rw [runesUpTo, runesUpTo, same]

@[simp] theorem runes_nil : runes [] = [] := rfl

theorem runes_cons (b : UInt8) (rest : Bytes) :
    runes (b :: rest) = (decodeRune b rest).1 :: runes (decodeRune b rest).2 := by
  have shorter := decodeRune_length b rest
  rw [runes, length_cons, runesUpTo, runes, runesUpTo_congr shorter le_rfl]

theorem runes_ascii (small : b.toNat < 0x80) : runes (b :: rest) = Char.ofNat b.toNat :: runes rest := by
  rw [runes_cons, decodeRune_ascii small]

theorem runes_encodeRune (c : Char) (rest : Bytes) : runes (encodeRune c ++ rest) = c :: runes rest := by
  obtain ⟨b, tail, bytes, back⟩ := decodeRune_encodeRune c
  rw [bytes, cons_append, runes_cons, back]

/-- Encoded text is read back rune by rune, whatever comes after it. -/
theorem runes_encode_append (cs : List Char) (rest : Bytes) : runes (encode cs ++ rest) = cs ++ runes rest := by
  induction cs with
  | nil => rfl
  | cons c cs ih =>
    have split : encode (c :: cs) ++ rest = encodeRune c ++ (encode cs ++ rest) := by
      rw [encode, flatMap_cons, append_assoc, encode]
    rw [split, runes_encodeRune, ih, cons_append]

@[simp] theorem runes_encode (cs : List Char) : runes (encode cs) = cs := by
  have whole := runes_encode_append cs []
  simpa using whole

/-- Bytes below `0x80` are boundaries: no rune reads across one. -/
theorem longRune_stop (small : stop.toNat < 0x80) :
    longRune b (rest ++ stop :: after) = (longRune b rest).map fun (c, tail) => (c, tail ++ stop :: after) := by
  have ends : isContinuation stop = false := by
    rw [isContinuation, Bool.and_eq_false_iff]
    left
    simpa using small
  have step (least n : Nat) (r : Bytes) : accept least n (r ++ stop :: after) =
      (accept least n r).map fun (c, tail) => (c, tail ++ stop :: after) := by
    unfold accept
    split <;> rfl
  match rest with
  | [] => simp [longRune, ends]
  | [b1] =>
    simp only [cons_append, nil_append, longRune, ends]
    split
    · rfl
    split
    · exact step _ _ []
    · rfl
  | [b1, b2] =>
    simp only [cons_append, nil_append, longRune, ends]
    split
    · rfl
    split
    · exact step _ _ [b2]
    split
    · rfl
    split
    · exact step _ _ []
    · rfl
  | b1 :: b2 :: b3 :: r3 =>
    simp only [cons_append, longRune]
    split
    · rfl
    split
    · exact step _ _ (b2 :: b3 :: r3)
    split
    · rfl
    split
    · exact step _ _ (b3 :: r3)
    split
    · rfl
    · exact step _ _ r3

theorem decodeRune_stop (b : UInt8) (rest after : Bytes) (small : stop.toNat < 0x80) :
    decodeRune b (rest ++ stop :: after) = ((decodeRune b rest).1, (decodeRune b rest).2 ++ stop :: after) := by
  unfold decodeRune
  split
  · rfl
  rw [longRune_stop small]
  cases longRune b rest <;> rfl

theorem runes_append_stop (front after : Bytes) (small : stop.toNat < 0x80) :
    runes (front ++ stop :: after) = runes front ++ Char.ofNat stop.toNat :: runes after := by
  generalize count : front.length = n
  induction n using Nat.strongRecOn generalizing front with
  | _ n ih =>
    cases front with
    | nil => exact runes_ascii small
    | cons b rest =>
      have shorter := decodeRune_length b rest
      rw [length_cons] at count
      rw [cons_append, runes_cons, runes_cons, decodeRune_stop b rest after small,
        ih _ (by omega) _ rfl, cons_append]

theorem runes_length (bytes : Bytes) : (runes bytes).length ≤ bytes.length := by
  generalize count : bytes.length = n
  induction n using Nat.strongRecOn generalizing bytes with
  | _ n ih =>
    cases bytes with
    | nil => exact Nat.zero_le _
    | cons b rest =>
      have shorter := decodeRune_length b rest
      rw [length_cons] at count
      have fewer := ih (decodeRune b rest).2.length (by omega) _ rfl
      rw [runes_cons, length_cons]
      omega

private theorem encode_runesUpTo (enough : bytes.length ≤ count)
    (valid : validUpTo count bytes = true) : encode (runes bytes) = bytes := by
  induction count generalizing bytes with
  | zero =>
    obtain rfl : bytes = [] := length_eq_zero_iff.mp (by omega)
    rfl
  | succ count ih =>
    cases bytes with
    | nil => rfl
    | cons b rest =>
      rw [length_cons] at enough
      have split (c : Char) (cs : List Char) : encode (c :: cs) = encodeRune c ++ encode cs := by
        rw [encode, flatMap_cons, encode]
      rw [validUpTo] at valid
      rw [runes_cons, split, decodeRune]
      by_cases small : b.toNat < 0x80
      · rw [if_pos small] at valid ⊢
        have byte : encodeRune (Char.ofNat b.toNat) = [b] := by
          rw [encodeRune, ofNat_toNat (Or.inl (by omega))]
          simp [small]
        rw [byte, ih (by omega) valid, singleton_append]
      · rw [if_neg small] at valid ⊢
        cases taken : longRune b rest with
        | none => simp [taken] at valid
        | some found =>
          obtain ⟨tail, whole, bytes, _⟩ := longRune_some taken
          have counted := congrArg length whole
          rw [length_append] at counted
          rw [taken] at valid
          rw [Option.getD_some, ih (by omega) valid, bytes, cons_append, ← whole]

/-- Valid text is the encoding of its runes. -/
theorem encode_runes (valid : validString bytes = true) : encode (runes bytes) = bytes :=
  encode_runesUpTo le_rfl valid

end Runes

end Classad.Utf8

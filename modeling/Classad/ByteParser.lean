import Mathlib.Tactic.Common
import Mathlib.Tactic.Ring

/-! Parsers that take bytes off the front of their input, and the numbers and strings of a
byte format. A writer and its reader are related by `Reads`, which composes along the
sequence of a format's parts. -/
namespace Classad.ByteParser

abbrev Bytes := List UInt8

/-- A parser returns a value and the input after it, or fails. -/
abbrev Parser (ε α : Type) := StateT Bytes (Except ε) α

/-- The parser takes exactly these bytes, whatever comes after them, and returns the value. -/
def Reads {ε α : Type} (p : Parser ε α) (bytes : Bytes) (value : α) : Prop :=
  ∀ rest, p (bytes ++ rest) = .ok (value, rest)

section
variable {ε α β : Type}

theorem Reads.pure (value : α) : Reads (Pure.pure value : Parser ε α) [] value :=
  fun _ => rfl

variable {f : α → Parser ε β}

theorem Reads.bind
    (left : Reads p first a) (right : Reads (f a) second b) : Reads (p >>= f) (first ++ second) b := by
  intro rest
  have taken := left (second ++ rest)
  rw [← List.append_assoc] at taken
  change (p (first ++ second ++ rest) >>= fun (value, after) => f value after) = _
  rw [taken]
  exact right rest

/-- A last step may take no bytes. -/
theorem Reads.finish (left : Reads p bytes a) (right : Reads (f a) [] b) : Reads (p >>= f) bytes b := by
  have both := left.bind right
  rwa [List.append_nil] at both

theorem Reads.map (f : α → β) (left : Reads p bytes a) : Reads (p >>= fun value => Pure.pure (f value)) bytes (f a) :=
  left.finish (Reads.pure (f a))

/-- The parser fails on these bytes, whatever comes after them. -/
def Fails (p : Parser ε α) (bytes : Bytes) (fault : ε) : Prop :=
  ∀ rest, p (bytes ++ rest) = .error fault

theorem Fails.map (left : Fails p bytes fault) : Fails (p >>= f) bytes fault := by
  intro rest
  change (p (bytes ++ rest) >>= fun (value, after) => f value after) = _
  rw [left]
  rfl

theorem Fails.bind (left : Fails p first fault) : Fails (p >>= f) (first ++ second) fault := by
  intro rest
  rw [List.append_assoc]
  exact left.map (second ++ rest)

theorem Reads.fails
    (left : Reads p first a) (right : Fails (f a) second fault) : Fails (p >>= f) (first ++ second) fault := by
  intro rest
  change (p (first ++ second ++ rest) >>= fun (value, after) => f value after) = _
  rw [List.append_assoc, left]
  exact right rest

theorem Reads.stop
    (left : Reads p bytes a) (right : Fails (f a) [] fault) : Fails (p >>= f) bytes fault := by
  have both := left.fails right
  rwa [List.append_nil] at both

/-- Take one byte. -/
def byteAt (ended : ε) : Parser ε UInt8
  | [] => .error ended
  | byte :: rest => .ok (byte, rest)

theorem byteAt_reads {byte : UInt8} : Reads (byteAt ended) [byte] byte :=
  fun _ => rfl

/-- Take a given number of bytes. -/
def takeBytes (short : ε) (count : Nat) : Parser ε Bytes := fun input =>
  if input.length < count then .error short else .ok (input.take count, input.drop count)

theorem takeBytes_reads (short : ε) (bytes : Bytes) : Reads (takeBytes short bytes.length) bytes bytes := by
  intro rest
  have enough : ¬(bytes ++ rest).length < bytes.length := by simp
  rw [takeBytes, if_neg enough, List.take_left, List.drop_left]

/-- Run a parser a given number of times. -/
def many (p : Parser ε α) : Nat → Parser ε (List α)
  | 0 => Pure.pure []
  | count + 1 => do
    let head ← p
    let tail ← many p count
    Pure.pure (head :: tail)

theorem many_reads_nil (p : Parser ε α) : Reads (many p 0) [] [] :=
  Reads.pure []

theorem many_reads_cons (head : Reads p first a) (tail : Reads (many p count) second as) :
    Reads (many p (count + 1)) (first ++ second) (a :: as) :=
  head.bind (tail.map (a :: ·))

theorem many_add (p : Parser ε α) (first second : Nat) :
    many p (first + second) = (many p first >>= fun front => many p second >>=
      fun back => Pure.pure (front ++ back)) := by
  induction first with
  | zero => simp [many]
  | succ first ih =>
    rw [Nat.add_right_comm]
    simp [many, ih]

theorem many_reads_append (left : Reads (many p before) first as) (right : Reads (many p after) second bs) :
    Reads (many p (before + after)) (first ++ second) (as ++ bs) := by
  rw [many_add]
  refine left.bind ?_
  exact right.map (as ++ ·)

theorem many_fails_append (left : Reads (many p before) first as) (right : Fails (many p after) second fault) :
    Fails (many p (before + after)) (first ++ second) fault := by
  rw [many_add]
  exact left.fails right.map

/-- Fail when fewer bytes are left than items are announced. -/
def checkCount (excess : ε) (count : Nat) : Parser ε Unit := fun input =>
  if input.length < count then .error excess else .ok ((), input)

/-- A checked count of items none of which is empty. -/
theorem checkCount_reads (enough : count ≤ bytes.length) (items : Reads p bytes a) :
    Reads (do checkCount excess count; p) bytes a := by
  intro rest
  have longer : ¬(bytes ++ rest).length < count := by
    rw [List.length_append]
    omega
  change (checkCount excess count (bytes ++ rest) >>= fun (_, after) => p after) = _
  rw [checkCount, if_neg longer]
  exact items rest

end

section Varints

/-- A number in groups of seven bits, low group first; all but the last have the top bit set.
The first argument is how many groups may follow the first. -/
def groups : Nat → Nat → Bytes
  | 0, number => [number.toUInt8]
  | more + 1, number =>
    if number < 128 then [number.toUInt8]
    else (number % 128 + 128).toUInt8 :: groups more (number / 128)

/-- `AppendUvarint`: a 64-bit number takes at most ten groups. -/
def uvarint (number : Nat) : Bytes := groups 9 number

/-- Read groups until one has its top bit clear. The last group a 64-bit number may have
holds a single bit. -/
def readGroups : Nat → Bytes → Option (Nat × Bytes)
  | 0, _ => none
  | _ + 1, [] => none
  | more + 1, byte :: rest =>
    if byte.toNat < 128 then
      if more = 0 ∧ 1 < byte.toNat then none else some (byte.toNat, rest)
    else (readGroups more rest).map fun (high, after) => (byte.toNat % 128 + 128 * high, after)

/-- `Uvarint`. -/
def readUvarint {ε : Type} (bad : ε) : Parser ε Nat := fun input =>
  match readGroups 10 input with
  | none => .error bad
  | some found => .ok found

private theorem small_byte (number : Nat) (small : number < 256) : number.toUInt8.toNat = number := by
  simpa using small

theorem readGroups_groups (more number : Nat) (small : number < 2 ^ (7 * more + 1)) :
    readGroups (more + 1) (groups more number ++ rest) = some (number, rest) := by
  induction more generalizing number with
  | zero =>
    have same := small_byte number (by omega)
    simp only [groups, List.cons_append, List.nil_append, readGroups, same]
    rw [if_pos (by omega), if_neg (by omega)]
  | succ more ih =>
    rw [groups]
    split
    next last =>
      have same := small_byte number (by omega)
      simp only [if_pos last, List.cons_append, List.nil_append, readGroups, same]
      rw [if_neg (by omega)]
    · have same := small_byte (number % 128 + 128) (by omega)
      have fewer : number / 128 < 2 ^ (7 * more + 1) := by
        rw [Nat.div_lt_iff_lt_mul (by decide)]
        calc number < 2 ^ (7 * (more + 1) + 1) := small
          _ = 2 ^ (7 * more + 1) * 128 := by ring
      rw [List.cons_append, readGroups, same, if_neg (by omega), ih _ fewer]
      have whole : (number % 128 + 128) % 128 + 128 * (number / 128) = number := by omega
      simp only [Option.map_some, whole]

theorem readUvarint_reads (bad : ε) (small : number < 2 ^ 64) :
    Reads (readUvarint bad) (uvarint number) number := by
  intro rest
  rw [readUvarint, uvarint, readGroups_groups 9 number small]

/-- Signed numbers alternate with the unsigned ones: 0, -1, 1, -2, … -/
def zigzag (number : Int64) : Nat :=
  if 0 ≤ number.toInt then (2 * number.toInt).toNat else (-2 * number.toInt - 1).toNat

def unzigzag (number : Nat) : Int64 :=
  Int64.ofInt (if number % 2 = 0 then (number / 2 : Nat) else -((number / 2 : Nat) : Int) - 1)

theorem zigzag_lt (number : Int64) : zigzag number < 2 ^ 64 := by
  have low := number.le_toInt
  have high := number.toInt_lt
  rw [zigzag]
  split <;> omega

theorem unzigzag_zigzag (number : Int64) : unzigzag (zigzag number) = number := by
  have same : (if zigzag number % 2 = 0 then ((zigzag number / 2 : Nat) : Int)
      else -((zigzag number / 2 : Nat) : Int) - 1) = number.toInt := by
    rw [zigzag]
    split <;> split <;> omega
  rw [unzigzag, same, Int64.ofInt_toInt]

/-- `AppendVarint`. -/
def varint (number : Int64) : Bytes := uvarint (zigzag number)

/-- `Varint`. -/
def readVarint {ε : Type} (bad : ε) : Parser ε Int64 := do
  let number ← readUvarint bad
  pure (unzigzag number)

theorem readVarint_reads (bad : ε) (number : Int64) : Reads (readVarint bad) (varint number) number := by
  have read := (readUvarint_reads bad (zigzag_lt number)).map unzigzag
  rwa [unzigzag_zigzag] at read

end Varints

section FixedWidth

/-- The low bytes of a number, lowest first. -/
def littleEndian : Nat → Nat → Bytes
  | 0, _ => []
  | width + 1, number => (number % 256).toUInt8 :: littleEndian width (number / 256)

def littleEndianValue : Bytes → Nat
  | [] => 0
  | byte :: rest => byte.toNat + 256 * littleEndianValue rest

theorem littleEndian_length (width number : Nat) : (littleEndian width number).length = width := by
  induction width generalizing number with
  | zero => rfl
  | succ width ih => rw [littleEndian, List.length_cons, ih]

theorem littleEndianValue_littleEndian (width number : Nat) :
    littleEndianValue (littleEndian width number) = number % 256 ^ width := by
  induction width generalizing number with
  | zero => simp [littleEndian, littleEndianValue, Nat.mod_one]
  | succ width ih =>
    have same := small_byte (number % 256) (by omega)
    rw [littleEndian, littleEndianValue, same, ih, Nat.pow_succ', Nat.mod_mul]

/-- Read a 64-bit word. -/
def readUInt64 {ε : Type} (short : ε) : Parser ε UInt64 := do
  let bytes ← takeBytes short 8
  pure (UInt64.ofNat (littleEndianValue bytes))

theorem readUInt64_reads (short : ε) (word : UInt64) :
    Reads (readUInt64 short) (littleEndian 8 word.toNat) word := by
  have taken := takeBytes_reads short (littleEndian 8 word.toNat)
  have read := taken.map fun bytes => UInt64.ofNat (littleEndianValue bytes)
  have whole : word.toNat % 256 ^ 8 = word.toNat := Nat.mod_eq_of_lt word.toNat_lt
  rwa [littleEndianValue_littleEndian, whole, UInt64.ofNat_toNat] at read

end FixedWidth

section Strings
variable {ε : Type}

/-- A string after its length. -/
def lengthPrefixed (bytes : Bytes) : Bytes := uvarint bytes.length ++ bytes

/-- Read a string after its length. -/
def readPrefixed (bad : ε) (long : Nat → ε) : Parser ε Bytes := do
  let count ← readUvarint bad
  takeBytes (long count) count

theorem readPrefixed_reads (bad : ε) (long : Nat → ε) (short : bytes.length < 2 ^ 64) :
    Reads (readPrefixed bad long) (lengthPrefixed bytes) bytes :=
  (readUvarint_reads bad short).bind (takeBytes_reads (long bytes.length) bytes)

end Strings

end Classad.ByteParser

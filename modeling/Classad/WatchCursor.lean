import Mathlib.Tactic.NormNum
import Classad.PartialRun
import Classad.ByteParser
import Classad.WireCodec

/-! Watch cursors: the opaque token a client keeps between two streams. The client sends it
back, so the reader may be given any bytes at all. -/
namespace Classad.WatchCursor
open ByteParser PartialRun WireCodec List

/-- `binary.LittleEndian.Uint64(b[off:])`, which panics where fewer than eight bytes are left. -/
def uint64At (b : Bytes) (off : Nat) : Run UInt64 :=
  if off + 8 ≤ b.length then .ok (UInt64.ofNat (littleEndianValue ((b.drop off).take 8))) else .panic

/-- `make` for elements of a given width in bytes. -/
def makeElements (width count : Nat) : Run Unit :=
  if count ≤ sliceLimit width then .ok () else .panic

def encodeCursor (epoch : UInt64) (seqs : List UInt64) : Run Bytes := do
  makeElements 1 (16 + 8 * seqs.length)
  return littleEndian 8 epoch.toNat ++ (littleEndian 8 (UInt64.ofNat seqs.length).toNat ++
    seqs.flatMap fun seq => littleEndian 8 seq.toNat)

def decodeCursor (b : Bytes) : Run (Option (UInt64 × List UInt64)) := do
  if b.length < 16 then return none
  let epoch ← uint64At b 0
  let n ← uint64At b 8
  -- both sides are 64-bit words, and the right one wraps
  if UInt64.ofNat b.length ≠ 16 + 8 * n then return none
  makeElements 8 n.toNat
  let seqs ← Run.traverse (fun i => uint64At b (16 + 8 * i)) (range n.toNat)
  return some (epoch, seqs)

/-- The count field of a token, bytes 8 to 16. -/
def countField (b : Bytes) : Nat := littleEndianValue ((b.drop 8).take 8)

section Words

theorem littleEndianValue_lt (bytes : Bytes) : littleEndianValue bytes < 256 ^ bytes.length := by
  induction bytes with
  | nil => exact Nat.one_pos
  | cons byte rest ih =>
    have small := byte.toNat_lt
    rw [littleEndianValue, length_cons, Nat.pow_succ]
    omega

theorem uint64At_inside (inside : off + 8 ≤ b.length) :
    uint64At b off = .ok (UInt64.ofNat (littleEndianValue ((b.drop off).take 8))) :=
  if_pos inside

/-- A word written at an offset is read back from it, whatever surrounds it. -/
theorem uint64At_written (before after : Bytes) (word : UInt64) :
    uint64At (before ++ (littleEndian 8 word.toNat ++ after)) before.length = .ok word := by
  have inside : before.length + 8 ≤ (before ++ (littleEndian 8 word.toNat ++ after)).length := by
    simp only [length_append, littleEndian_length]
    omega
  have found : (littleEndian 8 word.toNat ++ after).take 8 = littleEndian 8 word.toNat :=
    take_left' (littleEndian_length 8 word.toNat)
  have whole : word.toNat % 256 ^ 8 = word.toNat := Nat.mod_eq_of_lt word.toNat_lt
  rw [uint64At_inside inside, drop_left, found, littleEndianValue_littleEndian, whole, UInt64.ofNat_toNat]

theorem words_length (seqs : List UInt64) :
    (seqs.flatMap fun seq => littleEndian 8 seq.toNat).length = 8 * seqs.length := by
  induction seqs with
  | nil => rfl
  | cons seq rest ih =>
    rw [flatMap_cons, length_append, littleEndian_length, ih, length_cons]
    omega

/-- Words written one after the other are read back at every eighth byte. -/
theorem words_read (before : Bytes) (seqs : List UInt64) :
    Run.traverse (fun i => uint64At (before ++ seqs.flatMap fun seq => littleEndian 8 seq.toNat)
      (before.length + 8 * i))
      (range seqs.length) = .ok seqs := by
  induction seqs generalizing before with
  | nil => rfl
  | cons seq rest ih =>
    -- the later words stand after the first one, at offsets shifted by its width
    have later := ih (before ++ littleEndian 8 seq.toNat)
    rw [length_append, littleEndian_length] at later
    rw [length_cons, range_succ_eq_map, Run.traverse, flatMap_cons, Nat.mul_zero, Nat.add_zero,
      uint64At_written]
    have shifted : ∀ indices : List Nat,
        Run.traverse (fun i => uint64At (before ++
          (littleEndian 8 seq.toNat ++ rest.flatMap fun seq => littleEndian 8 seq.toNat))
          (before.length + 8 * i)) (indices.map Nat.succ) =
        Run.traverse (fun i => uint64At ((before ++ littleEndian 8 seq.toNat) ++ rest.flatMap fun seq =>
          littleEndian 8 seq.toNat)
          (before.length + 8 + 8 * i)) indices := by
      intro indices
      induction indices with
      | nil => rfl
      | cons index others tail =>
        have same : before.length + 8 * index.succ = before.length + 8 + 8 * index := by omega
        rw [map_cons, Run.traverse, Run.traverse, tail, same, append_assoc]
    rw [shifted, later]
    rfl

theorem traverse_inside (inside : ∀ i ∈ indices, 16 + 8 * i + 8 ≤ b.length) :
    ∃ seqs, Run.traverse (fun i => uint64At b (16 + 8 * i)) indices = .ok seqs ∧ seqs.length = indices.length := by
  induction indices with
  | nil => exact ⟨[], rfl, rfl⟩
  | cons index rest ih =>
    obtain ⟨seqs, read, counted⟩ := ih fun i member => inside i (.tail _ member)
    rw [Run.traverse, uint64At_inside (inside index (.head _)), Run.ok_bind, read, Run.ok_bind]
    exact ⟨_, rfl, by rw [length_cons, length_cons, counted]⟩

end Words

section Decoding
variable {b : Bytes}

theorem sliceLimit_one : sliceLimit 1 = 2 ^ 48 := by rw [sliceLimit, Nat.div_one]

theorem sliceLimit_eight : sliceLimit 8 = 2 ^ 45 := by norm_num [sliceLimit]

theorem countField_lt (b : Bytes) : countField b < 2 ^ 64 := by
  have bounded := littleEndianValue_lt ((b.drop 8).take 8)
  have short : ((b.drop 8).take 8).length ≤ 8 := length_take_le _ _
  have within : 256 ^ ((b.drop 8).take 8).length ≤ 256 ^ 8 := Nat.pow_le_pow_right (by omega) short
  exact lt_of_lt_of_le bounded within

/-- What the reader does with a token that has room for its header. -/
theorem decodeCursor_header (long : 16 ≤ b.length) (held : b.length ≤ sliceLimit 1) :
    ∃ epoch, decodeCursor b = if b.length ≠ (16 + 8 * countField b) % 2 ^ 64 then .ok none else do
        makeElements 8 (countField b)
        let seqs ← Run.traverse (fun i => uint64At b (16 + 8 * i)) (range (countField b))
        return some (epoch, seqs) := by
  have fits : b.length < 2 ^ 64 := by
    have limit := sliceLimit_one
    omega
  have count : (UInt64.ofNat (countField b)).toNat = countField b := Nat.mod_eq_of_lt (countField_lt b)
  have sameLength : UInt64.ofNat b.length ≠ 16 + 8 * UInt64.ofNat (countField b) ↔
      b.length ≠ (16 + 8 * countField b) % 2 ^ 64 := by
    have whole : (16 + 8 * countField b % 2 ^ 64) % 2 ^ 64 = (16 + 8 * countField b) % 2 ^ 64 := by omega
    have length : (UInt64.ofNat b.length).toNat = b.length := Nat.mod_eq_of_lt fits
    rw [ne_eq, ne_eq, ← UInt64.toNat_inj, UInt64.toNat_add, UInt64.toNat_mul, count, length, ← whole]
    rfl
  refine ⟨UInt64.ofNat (littleEndianValue ((b.drop 0).take 8)), ?_⟩
  have notShort : ¬b.length < 16 := by omega
  rw [decodeCursor, if_neg notShort, uint64At_inside (by omega), Run.ok_bind, uint64At_inside (by omega), Run.ok_bind]
  change (if UInt64.ofNat b.length ≠ 16 + 8 * UInt64.ofNat (countField b) then _ else (do
    makeElements 8 (UInt64.ofNat (countField b)).toNat
    let seqs ← Run.traverse (fun i => uint64At b (16 + 8 * i)) (range (UInt64.ofNat (countField b)).toNat)
    return some (_, seqs))) = _
  rw [count]
  by_cases differs : b.length ≠ (16 + 8 * countField b) % 2 ^ 64
  · rw [if_pos differs, if_pos (sameLength.mpr differs)]
    rfl
  · rw [if_neg differs, if_neg (differs ∘ sameLength.mp)]

/-- The length check holds as an equation of words and not as one of numbers. -/
def Wraps (b : Bytes) : Prop :=
  16 ≤ b.length ∧ 2 ^ 61 ≤ countField b ∧ b.length = (16 + 8 * countField b) % 2 ^ 64

instance : Decidable (Wraps b) := inferInstanceAs (Decidable (_ ∧ _ ∧ _))

theorem decodeCursor_of_wraps (wraps : Wraps b) (held : b.length ≤ sliceLimit 1) : decodeCursor b = .panic := by
  obtain ⟨long, huge, agrees⟩ := wraps
  obtain ⟨epoch, reads⟩ := decodeCursor_header long held
  have beyond : ¬countField b ≤ sliceLimit 8 := by
    have limit := sliceLimit_eight
    omega
  rw [reads, if_neg (fun differs => differs agrees), makeElements, if_neg beyond]
  rfl

theorem decodeCursor_of_not_wraps (unwrapped : ¬Wraps b) (held : b.length ≤ sliceLimit 1) :
    ∃ answer, decodeCursor b = .ok answer ∧ ∀ epoch seqs, answer = some (epoch, seqs) →
    b.length = 16 + 8 * seqs.length := by
  have refused (epoch : UInt64) (seqs : List UInt64) (accepted : none = some (epoch, seqs)) :
      b.length = 16 + 8 * seqs.length := by cases accepted
  by_cases long : 16 ≤ b.length
  · obtain ⟨epoch, reads⟩ := decodeCursor_header long held
    rw [reads]
    by_cases agrees : b.length = (16 + 8 * countField b) % 2 ^ 64
    · have small : countField b < 2 ^ 61 := by
        by_contra huge
        exact unwrapped ⟨long, by omega, agrees⟩
      have room : b.length = 16 + 8 * countField b := by omega
      have allocates : countField b ≤ sliceLimit 8 := by
        have limit := sliceLimit_one
        have limit' := sliceLimit_eight
        omega
      have inside : ∀ i ∈ range (countField b), 16 + 8 * i + 8 ≤ b.length := by
        intro i member
        have below := mem_range.mp member
        omega
      obtain ⟨seqs, read, counted⟩ := traverse_inside inside
      rw [if_neg (fun differs => differs agrees), makeElements, if_pos allocates, Run.ok_bind, read, Run.ok_bind]
      refine ⟨_, rfl, ?_⟩
      intro epoch' seqs' same
      obtain ⟨-, rfl⟩ := Prod.mk.inj (Option.some.inj same)
      rw [counted, length_range, room]
    · rw [if_pos agrees]
      exact ⟨none, rfl, refused⟩
  · rw [decodeCursor, if_pos (by omega)]
    exact ⟨none, rfl, refused⟩

theorem decodeCursor_encodeCursor (epoch : UInt64) (held : 16 + 8 * seqs.length ≤ sliceLimit 1) :
    encodeCursor epoch seqs >>= decodeCursor = .ok (some (epoch, seqs)) := by
  have limit := sliceLimit_one
  have limit' := sliceLimit_eight
  have counted : (UInt64.ofNat seqs.length).toNat = seqs.length := Nat.mod_eq_of_lt (by omega)
  let words := seqs.flatMap fun seq => littleEndian 8 seq.toNat
  let count := littleEndian 8 (UInt64.ofNat seqs.length).toNat
  let token := littleEndian 8 epoch.toNat ++ (count ++ words)
  have tokenLength : token.length = 16 + 8 * seqs.length := by
    simp only [token, count, words, length_append, littleEndian_length, words_length]
    omega
  have first : uint64At token 0 = .ok epoch := uint64At_written [] (count ++ words) epoch
  have second : uint64At token 8 = .ok (UInt64.ofNat seqs.length) := by
    have at8 := uint64At_written (littleEndian 8 epoch.toNat) words (UInt64.ofNat seqs.length)
    rwa [littleEndian_length] at at8
  have body : Run.traverse (fun i => uint64At token (16 + 8 * i)) (range seqs.length) = .ok seqs := by
    have read := words_read (littleEndian 8 epoch.toNat ++ count) seqs
    rwa [length_append, littleEndian_length, littleEndian_length, append_assoc] at read
  have checks : ¬UInt64.ofNat token.length ≠ 16 + 8 * UInt64.ofNat seqs.length := by
    rw [not_not, tokenLength, UInt64.ofNat_add, UInt64.ofNat_mul]
    rfl
  have encoded : encodeCursor epoch seqs = .ok token := by
    rw [encodeCursor, makeElements, if_pos held]
    rfl
  rw [encoded, Run.ok_bind, decodeCursor, if_neg (by omega), first, Run.ok_bind, second, Run.ok_bind, if_neg checks,
    counted, makeElements, if_pos (by omega), Run.ok_bind, body]
  rfl

end Decoding

/-- A token is read back as it was written. On any bytes the reader returns, and accepts only a token of
the length its count calls for, exactly when the length check does not wrap around. -/
theorem decodeCursor_safe_iff (epoch : UInt64) {seqs : List UInt64} (allocates : 16 + 8 * seqs.length ≤ sliceLimit 1)
    {b : Bytes} (held : b.length ≤ sliceLimit 1) :
    encodeCursor epoch seqs >>= decodeCursor = .ok (some (epoch, seqs)) ∧ ((∃ answer, decodeCursor b = .ok answer ∧
        ∀ epoch seqs, answer = some (epoch, seqs) → b.length = 16 + 8 * seqs.length) ↔ ¬Wraps b) := by
  refine ⟨decodeCursor_encodeCursor epoch allocates, ?_, ?_⟩
  · rintro ⟨answer, reads, -⟩ wraps
    rw [decodeCursor_of_wraps wraps held] at reads
    cases reads
  · intro unwrapped
    exact decodeCursor_of_not_wraps unwrapped held

/-- The token of epoch 7 with the sequence 3. -/
theorem decodeCursor_safe_on_token :
    let token : Bytes := [7, 0, 0, 0, 0, 0, 0, 0] ++ [1, 0, 0, 0, 0, 0, 0, 0] ++ [3, 0, 0, 0, 0, 0, 0, 0]
    encodeCursor 7 [3] = .ok token ∧ encodeCursor 7 [3] >>= decodeCursor = .ok (some (7, [3])) ∧
      ∃ answer, decodeCursor token = .ok answer ∧ ∀ epoch seqs, answer = some (epoch, seqs) →
          token.length = 16 + 8 * seqs.length := by
  intro token
  obtain ⟨back, safe⟩ := @decodeCursor_safe_iff 7 [3] (by decide) token (by decide)
  exact ⟨rfl, back, safe.mpr (by decide)⟩

/-- Sixteen bytes whose count field is 2^61. -/
theorem decodeCursor_panics : decodeCursor ([1, 0, 0, 0, 0, 0, 0, 0] ++ [0, 0, 0, 0, 0, 0, 0, 0x20]) = .panic :=
  decodeCursor_of_wraps (by decide) (by decide)

end Classad.WatchCursor

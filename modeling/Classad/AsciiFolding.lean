import Classad.TreeWalk

/-! Folding the case of ASCII letters. The evaluator compares strings with the ASCII letters of
their bytes lowered, the stores file them under `ToLower`; the two agree where only such letters
differ. -/
namespace Classad.AsciiFolding
open Syntax Operators TreeWalk List

/-- `ToLower` does with ASCII letters what the evaluator's comparison of strings does, and it
leaves lower-case ASCII text alone. -/
structure LowersASCII (host : Host) : Prop where
  folds : ∀ left right, compareStringsFold left right = .eq → host.toLower left = host.toLower right
  keeps : ∀ text : String, (text.toList.all fun c => decide (c.toNat < 128) && c.toLower == c) = true →
    host.toLower text = text

theorem compareBytesFold_eq (same : compareBytesFold left right = .eq) :
    left.map lowerASCII = right.map lowerASCII := by
  induction left generalizing right with
  | nil =>
    cases right with
    | nil => rfl
    | cons => cases same
  | cons a as ih =>
    cases right with
    | nil => cases same
    | cons b bs =>
      simp only [compareBytesFold] at same
      split at same
      · cases same
      · split at same
        · cases same
        next below above =>
          have head : lowerASCII a = lowerASCII b := UInt8.le_antisymm (UInt8.not_lt.mp above) (UInt8.not_lt.mp below)
          rw [map_cons, map_cons, head, ih same]

/-! ## Bytes and characters -/

theorem lowerASCII_high (high : 128 ≤ n) (byte : n < 256) : lowerASCII (UInt8.ofNat n) = UInt8.ofNat n := by
  unfold lowerASCII
  rw [if_neg]
  rintro ⟨-, letter⟩
  rw [UInt8.le_iff_toNat_le, UInt8.toNat_ofNat_of_lt' byte] at letter
  have : (90 : UInt8).toNat = 90 := rfl
  omega

theorem lowerASCII_ofNat (ascii : n ≤ 127) :
    lowerASCII (UInt8.ofNat n) = UInt8.ofNat (if 65 ≤ n ∧ n ≤ 90 then n + 32 else n) := by
  have all : ∀ n : Fin 128,
      lowerASCII (UInt8.ofNat n) = UInt8.ofNat (if 65 ≤ n.val ∧ n.val ≤ 90 then n + 32 else n) := by
    decide +kernel
  exact all ⟨n, by omega⟩

theorem toNat_toLower (c : Char) :
    c.toLower.val.toNat = if 65 ≤ c.val.toNat ∧ c.val.toNat ≤ 90 then c.val.toNat + 32 else c.val.toNat := by
  unfold Char.toLower
  have bounds : (c.val ≥ 'A'.val ∧ c.val ≤ 'Z'.val) ↔ 65 ≤ c.val.toNat ∧ c.val.toNat ≤ 90 := by
    exact Iff.rfl
  split
  next letter =>
    rw [if_pos (bounds.mp letter)]
    have low := bounds.mp letter
    change (c.val + 32).toNat = _
    rw [UInt32.toNat_add]
    have : (32 : UInt32).toNat = 32 := rfl
    omega
  next other =>
    rw [if_neg (fun letter => other (bounds.mpr letter))]

/-- Lowering an ASCII letter lowers its only byte; the bytes of other characters are no letters. -/
theorem utf8EncodeChar_toLower (c : Char) :
    String.utf8EncodeChar c.toLower = (String.utf8EncodeChar c).map lowerASCII := by
  unfold String.utf8EncodeChar
  by_cases ascii : c.val.toNat ≤ 127
  · have lowered : c.toLower.val.toNat ≤ 127 := by
      rw [toNat_toLower]
      split <;> omega
    simp only [ascii, lowered, if_true, map_cons, map_nil]
    rw [lowerASCII_ofNat ascii, toNat_toLower]
  · have same : c.toLower.val.toNat = c.val.toNat := by
      rw [toNat_toLower, if_neg (by omega)]
    simp only [same, ascii, if_false]
    split
    · simp only [map_cons, map_nil]
      rw [lowerASCII_high (by omega) (by omega), lowerASCII_high (by omega) (by omega)]
    · split
      · simp only [map_cons, map_nil]
        rw [lowerASCII_high (by omega) (by omega), lowerASCII_high (by omega) (by omega),
          lowerASCII_high (by omega) (by omega)]
      · simp only [map_cons, map_nil]
        rw [lowerASCII_high (by omega) (by omega), lowerASCII_high (by omega) (by omega),
          lowerASCII_high (by omega) (by omega), lowerASCII_high (by omega) (by omega)]

theorem bytes_ofList (chars : List Char) :
    (String.ofList chars).toByteArray.data.toList = chars.flatMap String.utf8EncodeChar := by
  simp [String.toByteArray_ofList, utf8Encode]

theorem bytes_toLower (now : Int64) (text : String) :
    ((asciiHost now).toLower text).toByteArray.data.toList = text.toUTF8.data.toList.map lowerASCII := by
  have spelled : text.toUTF8.data.toList = text.toList.flatMap String.utf8EncodeChar := by
    rw [← bytes_ofList, String.ofList_toList]
    rfl
  rw [spelled, map_flatMap]
  simp only [asciiHost, bytes_ofList, flatMap_map, utf8EncodeChar_toLower]

theorem lowersASCII_asciiHost (now : Int64) : LowersASCII (asciiHost now) where
  folds left right same := by
    apply String.toByteArray_inj.mp
    apply ByteArray.ext
    apply Array.toList_inj.mp
    rw [bytes_toLower, bytes_toLower]
    exact compareBytesFold_eq same
  keeps text ascii := by
    have same : text.toList.map Char.toLower = text.toList.map id :=
      map_congr_left fun c member => by simpa using (Bool.and_eq_true_iff.mp (all_eq_true.mp ascii c member)).2
    simp [asciiHost, same]

end Classad.AsciiFolding

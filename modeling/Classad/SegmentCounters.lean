import Classad.ShardFrames

/-! The counters of a segment: the bytes known to be dead, the least sequence of its ads and the
greatest supersession. The passes decide by them without looking at the records, so what they
say about the records is an invariant of every way to write to a segment. -/
namespace Classad.ShardStore
open Arena List

variable {A : Type}

variable (bound : Nat)

/-- The bytes of the ads that are current or superseded after a bound. -/
def openLen (records : List (Record A)) : Nat :=
  ((records.filter fun r => !r.isMarker && r.supersededAfter bound).map Record.totalLen).sum

/-- The counters of a segment that the passes rely on: bytes are only counted as dead when they
are a keyless record's or `maxSup`, which is a supersession, covers theirs. -/
structure Counted (seg : Segment A) : Prop where
  dead : seg.dead + openLen seg.maxSup seg.records ≤ seg.used
  minSeq : ∀ r ∈ seg.records, r.isMarker = false → 0 < seg.minSeq ∧ seg.minSeq ≤ r.seq
  positive : ∀ r ∈ seg.records, 0 < r.totalLen
  attained : seg.maxSup = 0 ∨ some seg.maxSup ∈ seg.records.map Record.superseded

theorem openLen_append (before after : List (Record A)) :
    openLen bound (before ++ after) = openLen bound before + openLen bound after := by
  simp [openLen]

theorem openLen_cons (r : Record A) (rest : List (Record A)) :
    openLen bound (r :: rest) = (if !r.isMarker && r.supersededAfter bound then r.totalLen else 0) + openLen
      bound rest := by
  unfold openLen
  rw [filter_cons]
  split <;> simp

theorem Record.supersededAfter_anti {r : Record A} (later : low ≤ high) (after : r.supersededAfter high = true) :
    r.supersededAfter low = true := by
  unfold Record.supersededAfter at after ⊢
  cases sup : r.superseded with
  | none => rfl
  | some x =>
    rw [sup] at after
    simp only [decide_eq_true_iff] at after ⊢
    omega

theorem openLen_anti {low high : Nat} (later : low ≤ high) (records : List (Record A)) :
    openLen high records ≤ openLen low records := by
  induction records with
  | nil => exact Nat.le_refl _
  | cons r rest ih =>
    rw [openLen_cons, openLen_cons]
    refine Nat.add_le_add ?_ ih
    by_cases counts : (!r.isMarker && r.supersededAfter high) = true
    · rw [Bool.and_eq_true] at counts
      apply Nat.le_of_eq
      rw [counts.1, counts.2, Record.supersededAfter_anti later counts.2]
    · rw [if_neg counts]
      exact Nat.zero_le _

theorem split_at {cell : α} (here : cells[off]? = some cell) :
    ∃ before after, cells = before ++ cell :: after ∧ ∀ f : α → α, cells.modify off f = before ++ f cell :: after := by
  obtain ⟨bound, rfl⟩ := List.getElem?_eq_some_iff.mp here
  refine ⟨cells.take off, cells.drop (off + 1), ?_, fun f => ?_⟩
  · rw [getElem_cons_drop, take_append_drop]
  · rw [modify_eq_take_cons_drop bound]

theorem Counted.fresh (size codec : Nat) : Counted (Segment.fresh size codec : Segment A) where
  dead := Nat.le_refl 0
  minSeq := nofun
  positive := nofun
  attained := .inl rfl

theorem Counted.supersedeRec (counted : Counted seg) {r : Record A} (here : seg.records[off]? = some r)
    (keyed : r.isMarker = false) (current : r.superseded = none) (x : Nat) : Counted (seg.supersedeRec off x) := by
  obtain ⟨before, after, whole, changed⟩ := split_at here
  have records : (seg.supersedeRec off x).records = before ++ { r with superseded := some x } :: after := by
    rw [Segment.supersedeRec, here]
    exact changed _
  have dead : (seg.supersedeRec off x).dead = seg.dead + r.totalLen := by rw [Segment.supersedeRec, here]
  have maxSup : (seg.supersedeRec off x).maxSup = max seg.maxSup x := by rw [Segment.supersedeRec, here]
  have minSeq : (seg.supersedeRec off x).minSeq = seg.minSeq := by
    rw [Segment.supersedeRec, here]
    rfl
  -- A record of the segment after the change is one of before with its supersession set.
  have earlier : ∀ r' ∈ (seg.supersedeRec off x).records, ∃ r₀ ∈ seg.records, r'.isMarker = r₀.isMarker ∧
    r'.seq = r₀.seq ∧
      r'.totalLen = r₀.totalLen := by
    intro r' member
    rw [records] at member
    rcases mem_append.mp member with inside | inside
    · exact ⟨r', by rw [whole]; exact mem_append_left _ inside, rfl, rfl, rfl⟩
    · rcases mem_cons.mp inside with rfl | inside
      · exact ⟨r, mem_of_getElem? here, rfl, rfl, rfl⟩
      · exact ⟨r', by rw [whole]; exact mem_append_right _ (.tail _ inside), rfl, rfl, rfl⟩
  refine ⟨?_, fun r' member marker => ?_, fun r' member => ?_, ?_⟩
  · have total := counted.dead
    have used : (seg.supersedeRec off x).used = seg.used := by
      rw [Segment.used, Segment.used, records, whole]
      simp
    have before_ : openLen seg.maxSup seg.records =
        openLen seg.maxSup before + (r.totalLen + openLen seg.maxSup after) := by
      rw [whole, openLen_append, openLen_cons, keyed, Record.supersededAfter, current]
      rfl
    have settled : ({ r with superseded := some x } : Record A).supersededAfter (max seg.maxSup x) = false :=
      decide_eq_false (Nat.not_lt.mpr (Nat.le_max_right _ _))
    have after_ : openLen (max seg.maxSup x) (seg.supersedeRec off x).records =
        openLen (max seg.maxSup x) before + openLen (max seg.maxSup x) after := by
      rw [records, openLen_append, openLen_cons, settled, Bool.and_false, if_neg Bool.false_ne_true, Nat.zero_add]
    have first := openLen_anti (Nat.le_max_left seg.maxSup x) before
    have second := openLen_anti (Nat.le_max_left seg.maxSup x) after
    rw [maxSup, dead, used, after_]
    omega
  · obtain ⟨r₀, member₀, markers, seqs, -⟩ := earlier r' member
    rw [minSeq, seqs]
    exact counted.minSeq r₀ member₀ (markers.symm.trans marker)
  · obtain ⟨r₀, member₀, -, -, lens⟩ := earlier r' member
    rw [lens]
    exact counted.positive r₀ member₀
  · rw [maxSup, records]
    rcases Nat.le_total seg.maxSup x with upTo | above
    · rw [Nat.max_eq_right upTo]
      simp
    · -- The greatest supersession is another record's, since this one had none.
      rw [Nat.max_eq_left above]
      refine counted.attained.imp_right fun held => ?_
      rw [whole] at held
      simp only [map_append, map_cons, mem_append, mem_cons, current, reduceCtorEq, false_or] at held ⊢
      exact held.imp_right .inr

/-- Appending a record: its bytes are not dead, unless it is keyless. -/
theorem Counted.push (counted : Counted seg) (records : seg'.records = seg.records ++ [r])
    (positive : 0 < r.totalLen) (maxSup : seg'.maxSup = seg.maxSup)
    (dead : seg'.dead = seg.dead + if r.isMarker then r.totalLen else 0)
    (minSeq : seg'.minSeq = seg.minSeq ∧ (r.isMarker = false → 0 < seg.minSeq ∧ seg.minSeq ≤ r.seq) ∨
      0 < r.seq ∧ seg'.minSeq = if seg.minSeq = 0 ∨ r.seq < seg.minSeq then r.seq else seg.minSeq) : Counted seg' where
  dead := by
    have total := counted.dead
    have used : seg'.used = seg.used + r.totalLen := by
      rw [Segment.used, Segment.used, records, map_append, sum_append]
      simp
    have added : openLen seg.maxSup [r] ≤ if r.isMarker then 0 else r.totalLen := by
      rw [openLen_cons]
      cases r.isMarker <;> cases r.supersededAfter seg.maxSup <;> simp [openLen]
    rw [used, maxSup, records, openLen_append, dead]
    cases marker : r.isMarker <;> simp only [marker] at added ⊢ <;> simp at added ⊢ <;> omega
  minSeq r' member marker := by
    rw [records] at member
    rcases mem_append.mp member with inside | inside
    · have old := counted.minSeq r' inside marker
      rcases minSeq with ⟨same, -⟩ | ⟨stamp, least⟩
      · rwa [same]
      · rw [least]
        split <;> omega
    · obtain rfl := mem_singleton.mp inside
      rcases minSeq with ⟨same, stamp⟩ | ⟨stamp, least⟩
      · exact same ▸ stamp marker
      · rw [least]
        split <;> omega
  positive r' member := by
    rw [records] at member
    rcases mem_append.mp member with inside | inside
    · exact counted.positive r' inside
    · obtain rfl := mem_singleton.mp inside
      exact positive
  attained := by
    rw [maxSup, records, map_append]
    exact counted.attained.imp_right (mem_append_left _)

theorem recordLen_pos (keyLen adLen : Nat) : 0 < recordLen keyLen adLen := by
  unfold recordLen
  omega

theorem Counted.append (counted : Counted seg) (stamp : 0 < seq) (next : Option Loc) (key : Key)
    (ad : A) (positive : 0 < len) : Counted (seg.append seq next (.ad key ad) len) :=
  counted.push rfl positive rfl rfl (.inr ⟨stamp, rfl⟩)

theorem Counted.appendMarker (counted : Counted seg) (stamp : 0 < seq) (millis : Nat) :
    Counted (seg.appendMarker seq millis) :=
  counted.push rfl (recordLen_pos 0 8) rfl rfl (.inr ⟨stamp, rfl⟩)

theorem Counted.appendDict (counted : Counted seg) (dictLen : Nat) : Counted (seg.appendDict dictLen) :=
  counted.push rfl (recordLen_pos 0 dictLen) rfl rfl (.inl ⟨rfl, nofun⟩)

/-- In a segment whose bytes are all dead every ad is superseded, and `maxSup` covers it. -/
theorem Counted.settled (counted : Counted seg) (allDead : seg.used ≤ seg.dead)
    (member : r ∈ seg.records) (keyed : r.isMarker = false) : ∃ x, r.superseded = some x ∧ x ≤ seg.maxSup := by
  by_contra open_
  have after : r.supersededAfter seg.maxSup = true := by
    unfold Record.supersededAfter
    cases sup : r.superseded with
    | none => rfl
    | some x =>
      rw [decide_eq_true_iff]
      by_contra upTo
      exact open_ ⟨x, sup, by omega⟩
  have total := counted.dead
  obtain ⟨before, behind, whole⟩ := append_of_mem member
  rw [whole, openLen_append, openLen_cons, keyed, after] at total
  have := counted.positive r member
  simp only [Bool.not_false, Bool.and_self, if_true] at total
  omega

end Classad.ShardStore

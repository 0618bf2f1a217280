import Classad.ShardSteps

/-! What a reader that pinned a segment can count on. Records are written once: of a record that
is there only the link and the supersession change, and the supersession only from absent to a
sequence after the last commit. Writers append to the active segment alone, and a segment that
becomes active is a new one. -/
namespace Classad.ShardStore
open Arena Chains

variable {A : Type}

section Aged
variable {bound : Nat} {r r' r'' : Record A}

/-- A record later on: perhaps superseded, at a sequence after a bound. -/
structure Aged (bound : Nat) (r r' : Record A) : Prop where
  seq : r'.seq = r.seq
  body : r'.body = r.body
  superseded : r'.superseded = r.superseded ∨ r.superseded = none ∧ ∃ x, r'.superseded = some x ∧ bound < x

theorem Aged.refl (bound : Nat) (r : Record A) : Aged bound r r := ⟨rfl, rfl, .inl rfl⟩

theorem Aged.trans (first : Aged bound r r') (second : Aged bound r' r'') : Aged bound r r'' where
  seq := second.seq.trans first.seq
  body := second.body.trans first.body
  superseded := by
    rcases second.superseded with same | ⟨current, later⟩
    · rcases first.superseded with same' | ⟨current', x, superseded, after⟩
      · exact .inl (same.trans same')
      · exact .inr ⟨current', x, same.trans superseded, after⟩
    · rcases first.superseded with same' | ⟨-, x, superseded, -⟩
      · exact .inr ⟨same'.symm.trans current, later⟩
      · rw [superseded] at current
        cases current

section
variable (aged : Aged bound r r')
include aged

theorem Aged.mono (lower : low ≤ bound) : Aged low r r' :=
  ⟨aged.seq, aged.body, aged.superseded.imp_right fun ⟨current, x, superseded, after⟩ =>
    ⟨current, x, superseded, Nat.lt_of_le_of_lt lower after⟩⟩

theorem Aged.of_superseded (superseded : r.superseded = some x) : r'.superseded = some x := by
  rcases aged.superseded with same | ⟨current, -⟩
  · exact same.trans superseded
  · rw [superseded] at current
    cases current

theorem Aged.isMarker : r'.isMarker = r.isMarker := by rw [Record.isMarker, Record.isMarker, aged.body]

/-- A record is as visible at a sequence up to the bound as it was. -/
theorem Aged.visibleAt (upTo : s0 ≤ bound) : r'.visibleAt s0 = r.visibleAt s0 := by
  have after : r'.supersededAfter s0 = r.supersededAfter s0 := by
    unfold Record.supersededAfter
    rcases aged.superseded with same | ⟨current, x, superseded, later⟩
    · rw [same]
    · rw [current, superseded]
      exact decide_eq_true (Nat.lt_of_le_of_lt upTo later)
  rw [Record.visibleAt, Record.visibleAt, aged.isMarker, aged.seq, after]

end

end Aged

section Keeps
variable {bound : Nat} {σ τ ρ : Shard A}

/-- Every record a reader may have pinned is still there. -/
def Keeps (bound : Nat) (σ τ : Shard A) : Prop := ∀ l r, σ.pinnedAt l = some r → ∃ r', τ.pinnedAt l = some r' ∧
    Aged bound r r'

theorem Keeps.refl (bound : Nat) (σ : Shard A) : Keeps bound σ σ := fun _ r here => ⟨r, here, .refl bound r⟩

theorem Keeps.trans (first : Keeps bound σ τ) (second : Keeps bound τ ρ) : Keeps bound σ ρ := by
  intro l r here
  obtain ⟨r', here', aged⟩ := first l r here
  obtain ⟨r'', here'', aged'⟩ := second l r' here'
  exact ⟨r'', here'', aged.trans aged'⟩

theorem Keeps.mono (keeps : Keeps bound σ τ) (lower : low ≤ bound) : Keeps low σ τ := by
  intro l r here
  obtain ⟨r', here', aged⟩ := keeps l r here
  exact ⟨r', here', aged.mono lower⟩

theorem Keeps.of_segs (same : τ.segs = σ.segs) : Keeps bound σ τ := by
  intro l r here
  refine ⟨r, ?_, .refl bound r⟩
  rw [Shard.pinnedAt, same]
  exact here

theorem pinnedAt_modifySeg (σ : Shard A) (id : Nat) (f : Segment A → Segment A) (l : Loc) :
    (σ.modifySeg id f).pinnedAt l =
      if id = l.seg then (σ.segs[l.seg]?).bind fun seg => (f seg).records[l.off]? else σ.pinnedAt l := by
  rw [Shard.pinnedAt, getElem?_modifySeg]
  split
  · cases σ.segs[l.seg]? <;> rfl
  · rfl

/-- A change of one segment that keeps its records keeps them all. -/
theorem Keeps.modifySeg (σ : Shard A) (id : Nat)
    (kept : ∀ seg : Segment A, σ.segs[id]? = some seg → ∀ (off : Nat) (r : Record A), seg.records[off]? = some r →
      ∃ r', (f seg).records[off]? = some r' ∧ Aged bound r r') : Keeps bound σ (σ.modifySeg id f) := by
  intro l r here
  rw [pinnedAt_modifySeg]
  by_cases same : id = l.seg
  · subst same
    rw [if_pos rfl]
    obtain ⟨seg, found, at_⟩ := Option.bind_eq_some_iff.mp here
    rw [found]
    exact kept seg found l.off r at_
  · rw [if_neg same]
    exact ⟨r, here, .refl bound r⟩

theorem kept_append {seg : Segment A} {off : Nat} (here : seg.records[off]? = some r) :
    ∃ r', (seg.records ++ more)[off]? = some r' ∧ Aged bound r r' := by
  refine ⟨r, ?_, .refl bound r⟩
  rw [List.getElem?_append_left (List.getElem?_eq_some_iff.mp here).1, here]

theorem Keeps.supersedeRec (here : σ.pinnedAt l = some r) (current : r.superseded = none)
    (later : bound < x) : Keeps bound σ (σ.supersedeRec l x) := by
  apply Keeps.modifySeg
  intro seg found off r' at_
  rw [Shard.pinnedAt, found, Option.bind_some] at here
  unfold Segment.supersedeRec
  simp only [here]
  change ∃ r'', (seg.records.modify l.off fun r => { r with superseded := some x })[off]? = some r'' ∧ Aged bound r' r''
  rw [List.getElem?_modify, at_]
  by_cases same : l.off = off
  · subst same
    rw [here] at at_
    cases at_
    refine ⟨{ r with superseded := some x }, by simp, rfl, rfl, .inr ⟨current, x, rfl, later⟩⟩
  · exact ⟨r', by simp [same], .refl bound r'⟩

/-- New segments hide no record. -/
theorem Keeps.append_segs (same : τ.segs = σ.segs ++ more) : Keeps bound σ τ := by
  intro l r here
  obtain ⟨seg, found, at_⟩ := Option.bind_eq_some_iff.mp here
  refine ⟨r, ?_, .refl bound r⟩
  rw [Shard.pinnedAt, same, List.getElem?_append_left (List.getElem?_eq_some_iff.mp found).1, found,
    Option.bind_some, at_]

theorem Keeps.retire (σ : Shard A) (gone : Nat → Bool) : Keeps bound σ (σ.retire gone) := by
  intro l r here
  obtain ⟨seg, found, at_⟩ := Option.bind_eq_some_iff.mp here
  refine ⟨r, ?_, .refl bound r⟩
  rw [Shard.pinnedAt, Shard.retire, List.getElem?_mapIdx, found]
  split
  · exact at_
  · exact at_

end Keeps

section Grows
variable {bound : Nat} {σ τ ρ : Shard A}

/-- What writers and the key index do to a shard: nothing to the segments but for the active one,
and supersessions. -/
structure Grows (bound : Nat) (σ τ : Shard A) : Prop where
  keeps : Keeps bound σ τ
  segs : ∀ id seg, σ.segs[id]? = some seg → ∃ seg', τ.segs[id]? = some seg' ∧ seg'.retired = seg.retired ∧
    (σ.act ≠ some id → seg'.records.length = seg.records.length)
  act : τ.act = σ.act ∨ ∃ id, τ.act = some id ∧ σ.segs.length ≤ id

theorem Grows.length_le (grows : Grows bound σ τ) : σ.segs.length ≤ τ.segs.length := by
  by_contra shorter
  have inside : τ.segs.length < σ.segs.length := by omega
  obtain ⟨seg', found, -⟩ := grows.segs τ.segs.length σ.segs[τ.segs.length] (List.getElem?_eq_getElem inside)
  have bound := (List.getElem?_eq_some_iff.mp found).1
  omega

theorem Grows.refl (bound : Nat) (σ : Shard A) : Grows bound σ σ :=
  ⟨.refl bound σ, fun _ seg here => ⟨seg, here, rfl, fun _ => rfl⟩, .inl rfl⟩

theorem Grows.trans (first : Grows bound σ τ) (second : Grows bound τ ρ) : Grows bound σ ρ where
  keeps := first.keeps.trans second.keeps
  segs id seg here := by
    obtain ⟨seg', here', retired, length⟩ := first.segs id seg here
    obtain ⟨seg'', here'', retired', length'⟩ := second.segs id seg' here'
    refine ⟨seg'', here'', retired'.trans retired, fun inactive => ?_⟩
    have inactive' : τ.act ≠ some id := by
      intro isActive
      rcases first.act with same | ⟨other, becomes, beyond⟩
      · exact inactive (same.symm.trans isActive)
      · rw [becomes] at isActive
        cases isActive
        have inside := (List.getElem?_eq_some_iff.mp here).1
        omega
    exact (length' inactive').trans (length inactive)
  act := by
    rcases second.act with same | ⟨id, becomes, beyond⟩
    · rw [same]
      exact first.act
    · exact .inr ⟨id, becomes, Nat.le_trans first.length_le beyond⟩

theorem Grows.of_fields (segs : τ.segs = σ.segs) (act : τ.act = σ.act) : Grows bound σ τ where
  keeps := .of_segs segs
  segs id seg here := ⟨seg, by rw [segs, here], rfl, fun _ => rfl⟩
  act := .inl act

/-- A change of the records of one segment, in number only if it is the active one. -/
theorem Grows.modifySeg {id : Nat} (keeps : Keeps bound σ (σ.modifySeg id f))
    (retired : ∀ seg, (f seg).retired = seg.retired)
    (length : ∀ seg, σ.act ≠ some id → (f seg).records.length = seg.records.length) :
    Grows bound σ (σ.modifySeg id f) where
  keeps := keeps
  segs i seg here := by
    rw [getElem?_modifySeg]
    by_cases same : id = i
    · subst same
      exact ⟨f seg, by rw [if_pos rfl, here]; rfl, retired seg, fun inactive => length seg inactive⟩
    · exact ⟨seg, by rw [if_neg same, here], rfl, fun _ => rfl⟩
  act := .inl rfl

theorem Grows.supersedeRec (here : σ.pinnedAt l = some r) (current : r.superseded = none)
    (later : bound < x) : Grows bound σ (σ.supersedeRec l x) := by
  apply Grows.modifySeg (.supersedeRec here current later) (fun seg => retired_supersedeRec x)
  intro seg _
  unfold Segment.supersedeRec
  split
  · rfl
  · exact List.length_modify _ _ _

theorem Grows.allocate (σ : Shard A) (size codec : Nat) : Grows bound σ (σ.allocate size codec) where
  keeps := .append_segs rfl
  segs id seg here := by
    refine ⟨seg, ?_, rfl, fun _ => rfl⟩
    rw [Shard.allocate, List.getElem?_append_left (List.getElem?_eq_some_iff.mp here).1, here]
  act := .inr ⟨σ.segs.length, rfl, Nat.le_refl _⟩

end Grows

end Classad.ShardStore

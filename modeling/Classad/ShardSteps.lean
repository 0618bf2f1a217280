import Classad.ShardStore

/-! What the elementary changes of a shard do: appending a record, superseding one, setting a
link, retiring segments. Each is described by what every location holds afterwards and by the
list of all live records; the passes of the shard are sequences of these. -/
namespace Classad.ShardStore
open Arena Chains List
open Segment (append fresh live supersedeRec)
open Shard (allocate isProbed markDirty modifySeg recordAt)

variable {A : Type}

/-! ## Records through the arena -/

theorem live_modifyRecord (seg : Segment A) :
    (seg.modifyRecord off f).live = seg.live.modify off f := by
  unfold live Segment.modifyRecord
  split <;> simp

theorem live_supersedeRec (seg : Segment A) (off x : Nat) :
    (seg.supersedeRec off x).live = seg.live.modify off fun r => { r with superseded := some x } := by
  unfold supersedeRec
  cases found : seg.records[off]? with
  | some r => exact live_modifyRecord seg
  | none =>
    have beyond : seg.live.length ≤ off := by
      have outside := getElem?_eq_none_iff.mp found
      unfold live
      split
      · exact Nat.zero_le _
      · exact outside
    exact (modify_eq_self beyond).symm

variable {f : Segment A → Segment A}

section
variable (σ : Shard A)

theorem arena_modifySeg {id : Nat}
    (same : ∀ seg, σ.segs[id]? = some seg → (f seg).live = g seg.live) :
    (σ.modifySeg id f).arena = σ.arena.modify id g := by
  apply ext_getElem?
  intro i
  simp only [Shard.arena, modifySeg, getElem?_map, getElem?_modify]
  cases found : σ.segs[i]? with
  | none => simp
  | some seg =>
    by_cases here : id = i
    · subst here
      simp [same seg found]
    · simp [here]

variable (l : Loc)

theorem arena_setRecNext (next : Option Loc) :
    (σ.setRecNext l next).arena = modifyCell σ.arena l fun r => { r with next := next } :=
  arena_modifySeg σ fun seg _ => live_modifyRecord seg

theorem arena_supersedeRec (x : Nat) :
    (σ.supersedeRec l x).arena = modifyCell σ.arena l fun r => { r with superseded := some x } :=
  arena_modifySeg σ fun seg _ => live_supersedeRec seg l.off x

theorem recordAt_setRecNext (l l' : Loc) (next : Option Loc) :
    (σ.setRecNext l next).recordAt l' =
      if l' = l then (σ.recordAt l).map fun r => { r with next := next } else σ.recordAt l' := by
  rw [recordAt, arena_setRecNext, cellAt_modifyCell]
  rfl

theorem recordAt_supersedeRec (l l' : Loc) (x : Nat) :
    (σ.supersedeRec l x).recordAt l' =
      if l' = l then (σ.recordAt l).map fun r => { r with superseded := some x } else σ.recordAt l' := by
  rw [recordAt, arena_supersedeRec, cellAt_modifyCell]
  rfl

theorem links_setRecNext (next : Option Loc) :
    (σ.setRecNext l next).links = setLink σ.links l next := by
  funext l'
  simp only [Shard.links, setLink, recordAt_setRecNext]
  split
  · cases σ.recordAt l <;> rfl
  · rfl

theorem links_supersedeRec (x : Nat) : (σ.supersedeRec l x).links = σ.links := by
  funext l'
  simp only [Shard.links, recordAt_supersedeRec]
  split
  next here =>
    subst here
    cases σ.recordAt l' <;> rfl
  · rfl

end

variable {σ σ' : Shard A}

theorem recordAt_of_segs (same : σ'.segs = σ.segs) {l : Loc} : σ'.recordAt l = σ.recordAt l := by
  rw [recordAt, recordAt, Shard.arena, Shard.arena, same]

theorem links_of_segs (same : σ'.segs = σ.segs) : σ'.links = σ.links := by
  funext l
  rw [Shard.links, Shard.links, recordAt_of_segs same]

theorem recordAt_eq (σ : Shard A) (l : Loc) :
    σ.recordAt l = (σ.segs[l.seg]?).bind fun seg => if seg.retired then none else seg.records[l.off]? := by
  rw [recordAt, cellAt, Shard.arena, getElem?_map]
  cases σ.segs[l.seg]? with
  | none => rfl
  | some seg =>
    simp only [Option.map_some, Option.bind_some, live]
    split
    · exact getElem?_nil
    · rfl

/-- What is found through the shard is what a pin would find. -/
theorem pinnedAt_of_recordAt (found : σ.recordAt l = some r) : σ.pinnedAt l = some r := by
  rw [recordAt_eq] at found
  rw [Shard.pinnedAt]
  cases here : σ.segs[l.seg]? with
  | none => rw [here] at found; cases found
  | some seg =>
    rw [here, Option.bind_some] at found
    split at found
    · cases found
    · exact found

theorem mem_records_iff : r ∈ σ.arena.flatten ↔ ∃ l, σ.recordAt l = some r := mem_flatten_iff

theorem getElem?_modifySeg (σ : Shard A) (id i : Nat) (f : Segment A → Segment A) :
    (σ.modifySeg id f).segs[i]? = if id = i then (σ.segs[i]?).map f else σ.segs[i]? := by
  rw [modifySeg, getElem?_modify]
  split <;> simp [*]

/-- The probe looks at flags only. -/
theorem isProbed_modifySeg {σ : Shard A} {id : Nat} (i : Nat)
    (retired : ∀ seg, (f seg).retired = seg.retired) (indexed : ∀ seg, (f seg).keyIndexed = seg.keyIndexed) :
    (σ.modifySeg id f).isProbed i = σ.isProbed i := by
  unfold isProbed
  rw [getElem?_modifySeg]
  by_cases here : id = i
  · rw [if_pos here]
    cases σ.segs[i]? with
    | none => rfl
    | some seg => simp [retired, indexed, modifySeg]
  · rw [if_neg here]
    rfl

theorem retired_supersedeRec {seg : Segment A} {off : Nat} (x : Nat) :
    (seg.supersedeRec off x).retired = seg.retired := by
  unfold supersedeRec
  split <;> rfl

theorem keyIndexed_supersedeRec {seg : Segment A} {off : Nat} (x : Nat) :
    (seg.supersedeRec off x).keyIndexed = seg.keyIndexed := by
  unfold supersedeRec
  split <;> rfl

theorem isProbed_supersedeRec (σ : Shard A) (l : Loc) (x i : Nat) : (σ.supersedeRec l x).isProbed i = σ.isProbed i :=
  isProbed_modifySeg i (fun _ => retired_supersedeRec x) fun _ => keyIndexed_supersedeRec x

theorem isProbed_of_segs (segs : σ'.segs = σ.segs) (act : σ'.act = σ.act) (i : Nat) :
    σ'.isProbed i = σ.isProbed i := by
  rw [isProbed, isProbed, segs, act]

/-! ## Appending -/

/-- One record is added at a location that was free, and nothing else is. -/
structure Appends (σ σ' : Shard A) (new : Loc) (r : Record A) : Prop where
  recordAt : ∀ l, σ'.recordAt l = if l = new then some r else σ.recordAt l
  free : σ.recordAt new = none
  cells : σ'.arena.flatten.Perm (r :: σ.arena.flatten)

theorem Appends.of_segs (appends : Appends σ σ' new r) (same : τ.segs = σ'.segs) :
    Appends σ τ new r where
  recordAt l := (recordAt_of_segs same).trans (appends.recordAt l)
  free := appends.free
  cells := by
    rw [Shard.arena, same]
    exact appends.cells

theorem Appends.links (appends : Appends σ σ' new r) (l : Loc) :
    σ'.links l = if l = new then some r.next else σ.links l := by
  rw [Shard.links, appends.recordAt]
  split <;> rfl

theorem appends_modifySeg {id : Nat}
    (found : σ.segs[id]? = some seg) (active : seg.retired = false)
    (adds : (f seg).live = seg.live ++ [r]) : Appends σ (σ.modifySeg id f) ⟨id, seg.records.length⟩ r := by
  have live : seg.live = seg.records := by rw [live, active]; rfl
  have arena : (σ.modifySeg id f).arena = pushCell σ.arena id r := by
    apply arena_modifySeg
    intro other here
    rw [found] at here
    cases here
    exact adds
  have cells : σ.arena[id]? = some seg.records := by
    rw [Shard.arena, getElem?_map, found, ← live]
    rfl
  refine ⟨fun l => ?_, ?_, ?_⟩
  · rw [recordAt, arena, cellAt_pushCell cells]
    rfl
  · rw [recordAt, cellAt, cells, Option.bind_some, getElem?_eq_none (Nat.le_refl _)]
  · rw [arena]
    exact flatten_pushCell (List.getElem?_eq_some_iff.mp cells).1 r

/-- A new segment holds nothing. -/
theorem recordAt_allocate (σ : Shard A) (size codec : Nat) (l : Loc) :
    (σ.allocate size codec).recordAt l = σ.recordAt l := by
  rw [recordAt_eq, recordAt_eq, allocate]
  by_cases inside : l.seg < σ.segs.length
  · rw [getElem?_append_left inside]
  · rw [getElem?_append_right (by omega), getElem?_eq_none (by omega : σ.segs.length ≤ l.seg)]
    cases found : [(fresh size codec : Segment A)][l.seg - σ.segs.length]? with
    | none => rfl
    | some seg =>
      obtain rfl := mem_singleton.mp (mem_of_getElem? found)
      rfl

theorem cells_allocate (σ : Shard A) (size codec : Nat) : (σ.allocate size codec).arena.flatten = σ.arena.flatten := by
  simp [Shard.arena, allocate, fresh, live]

theorem live_append (seg : Segment A) (active : seg.retired = false) (seq : Nat) (next : Option Loc) (body : Body A)
    (len : Nat) :
    (seg.append seq next body len).live = seg.live ++ [⟨seq, none, next, body, len⟩] := by
  simp [live, append, active]

end Classad.ShardStore

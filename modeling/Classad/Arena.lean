import Mathlib.Data.List.Basic
import Mathlib.Data.List.Perm.Basic
import Mathlib.Data.List.Flatten
import Mathlib.Data.List.Nodup
import Mathlib.Data.List.Pairwise
import Mathlib.Tactic.Common

/-! Cells in numbered segments, addressed by segment and offset. Nothing here mentions a
particular store: each way to change one cell is described once by what every address holds
afterwards and once by the list of all cells. -/
namespace Classad.Arena
open List Option

/-- The address of a cell. -/
structure Loc where
  seg : Nat
  off : Nat
  deriving DecidableEq, Repr

variable {α : Type}

def cellAt (arena : List (List α)) (l : Loc) : Option α :=
  (arena[l.seg]?).bind fun cells => cells[l.off]?

/-- Change one cell. -/
def modifyCell (arena : List (List α)) (l : Loc) (f : α → α) : List (List α) :=
  arena.modify l.seg fun cells => cells.modify l.off f

/-- Add a cell at the end of a segment. -/
def pushCell (arena : List (List α)) (seg : Nat) (cell : α) : List (List α) :=
  arena.modify seg fun cells => cells ++ [cell]

/-- Empty the segments a predicate selects. -/
def clear (arena : List (List α)) (gone : Nat → Bool) : List (List α) :=
  arena.mapIdx fun seg cells => if gone seg then [] else cells

/-- What a change of one element leaves in a list. -/
theorem mem_modify {xs : List α} (member : x ∈ xs.modify i f) : x ∈ xs ∨ ∃ y, xs[i]? = some y ∧ x = f y := by
  obtain ⟨j, here⟩ := mem_iff_getElem?.mp member
  rw [getElem?_modify] at here
  by_cases same : i = j
  · subst same
    simp only [if_true, Option.map_eq_map] at here
    obtain ⟨y, found, rfl⟩ := map_eq_some_iff.mp here
    exact .inr ⟨y, found, rfl⟩
  · simp only [same, if_false, Option.map_eq_map, Option.map_id'] at here
    exact .inl (mem_of_getElem? here)

theorem forall_modify {P : α → Prop} {xs : List α} (all : ∀ x ∈ xs, P x)
    (changed : ∀ x, xs[i]? = some x → P x → P (f x)) : ∀ x ∈ xs.modify i f, P x := by
  intro x member
  rcases mem_modify member with old | ⟨y, here, rfl⟩
  · exact all x old
  · exact changed y here (all y (mem_of_getElem? here))

theorem cellAt_modifyCell (arena : List (List α)) (l l' : Loc) (f : α → α) :
    cellAt (modifyCell arena l f) l' = if l' = l then (cellAt arena l).map f else cellAt arena l' := by
  obtain ⟨seg, off⟩ := l
  obtain ⟨seg', off'⟩ := l'
  unfold cellAt modifyCell
  by_cases same : seg = seg'
  · subst same
    by_cases here : off = off'
    · subst here
      cases found : arena[seg]? with
      | none => simp [found]
      | some cells => simp [found]
    · have differs : (⟨seg, off'⟩ : Loc) ≠ ⟨seg, off⟩ := fun h => here (Loc.mk.inj h).2.symm
      cases found : arena[seg]? with
      | none => simp [found, differs]
      | some cells => simp [found, differs, here]
  · have differs : (⟨seg', off'⟩ : Loc) ≠ ⟨seg, off⟩ := fun h => same (Loc.mk.inj h).1.symm
    simp [same, differs]

theorem cellAt_pushCell (found : arena[seg]? = some cells) (cell : α) (l : Loc) :
    cellAt (pushCell arena seg cell) l = if l = ⟨seg, cells.length⟩ then some cell else cellAt arena l := by
  obtain ⟨seg', off⟩ := l
  unfold cellAt pushCell
  by_cases same : seg = seg'
  · subst same
    by_cases last : off = cells.length
    · subst last
      simp [found]
    · have differs : (⟨seg, off⟩ : Loc) ≠ ⟨seg, cells.length⟩ := fun h => last (Loc.mk.inj h).2
      rw [if_neg differs]
      rw [getElem?_modify_eq, found]
      change (cells ++ [cell])[off]? = cells[off]?
      by_cases inside : off < cells.length
      · rw [getElem?_append_left inside]
      · have beyond : (cells ++ [cell]).length ≤ off := by
          rw [length_append, length_singleton]
          omega
        rw [getElem?_eq_none beyond, getElem?_eq_none (by omega)]
  · have differs : (⟨seg', off⟩ : Loc) ≠ ⟨seg, cells.length⟩ := fun h => same (Loc.mk.inj h).1.symm
    simp [same, differs]

theorem cellAt_append (arena more : List (List α)) (l : Loc) :
    cellAt (arena ++ more) l =
      if l.seg < arena.length then cellAt arena l else cellAt more ⟨l.seg - arena.length, l.off⟩ := by
  unfold cellAt
  split
  next inside =>
    rw [getElem?_append_left inside]
  · rw [getElem?_append_right (by omega)]

theorem cellAt_clear (arena : List (List α)) (gone : Nat → Bool) (l : Loc) :
    cellAt (clear arena gone) l = if gone l.seg then none else cellAt arena l := by
  unfold cellAt clear
  rw [getElem?_mapIdx]
  cases arena[l.seg]? with
  | none => simp
  | some cells => by_cases dropped : gone l.seg <;> simp [dropped]

theorem seg_lt_of_cellAt (found : cellAt arena l = some cell) : l.seg < arena.length := by
  by_contra outside
  rw [cellAt, getElem?_eq_none (by omega)] at found
  cases found

/-- Every cell has an address. -/
theorem mem_flatten_iff : cell ∈ arena.flatten ↔ ∃ l, cellAt arena l = some cell := by
  constructor
  · intro member
    obtain ⟨cells, inArena, inside⟩ := mem_flatten.mp member
    obtain ⟨seg, atSeg⟩ := mem_iff_getElem?.mp inArena
    obtain ⟨off, atOff⟩ := mem_iff_getElem?.mp inside
    exact ⟨⟨seg, off⟩, by rw [cellAt, atSeg, bind_some, atOff]⟩
  · rintro ⟨l, found⟩
    obtain ⟨cells, atSeg, atOff⟩ := bind_eq_some_iff.mp found
    exact mem_flatten.mpr ⟨cells, mem_iff_getElem?.mpr ⟨_, atSeg⟩, mem_iff_getElem?.mpr ⟨_, atOff⟩⟩

/-- Changing one cell changes one position of the list of all cells. -/
theorem flatten_modifyCell (found : cellAt arena l = some cell) (f : α → α) :
    ∃ before after, arena.flatten = before ++ cell :: after ∧
      (modifyCell arena l f).flatten = before ++ f cell :: after := by
  obtain ⟨cells, atSeg, atOff⟩ := bind_eq_some_iff.mp found
  obtain ⟨segBound, rfl⟩ := List.getElem?_eq_some_iff.mp atSeg
  obtain ⟨offBound, rfl⟩ := List.getElem?_eq_some_iff.mp atOff
  have segments := getElem_cons_drop segBound
  have inside := getElem_cons_drop offBound
  refine ⟨(arena.take l.seg).flatten ++ arena[l.seg].take l.off,
    arena[l.seg].drop (l.off + 1) ++ (arena.drop (l.seg + 1)).flatten, ?_, ?_⟩
  · calc arena.flatten = (arena.take l.seg ++ arena.drop l.seg).flatten := by rw [take_append_drop]
      _ = (arena.take l.seg).flatten ++ (arena[l.seg] ++ (arena.drop (l.seg + 1)).flatten) := by
        rw [flatten_append, ← segments, flatten_cons]
      _ = _ := by
        have split : arena[l.seg] = arena[l.seg].take l.off ++
            arena[l.seg][l.off] :: arena[l.seg].drop (l.off + 1) := by
          rw [inside, take_append_drop]
        conv_lhs => rw [split]
        simp only [append_assoc, cons_append]
  · rw [modifyCell, modify_eq_take_cons_drop segBound, modify_eq_take_cons_drop offBound]
    simp

theorem flatten_pushCell (bound : seg < arena.length) (cell : α) :
    (pushCell arena seg cell).flatten.Perm (cell :: arena.flatten) := by
  have segments := getElem_cons_drop bound
  rw [pushCell, modify_eq_take_cons_drop bound]
  simp only [flatten_append, flatten_cons, append_assoc, cons_append, nil_append]
  have whole : arena.flatten = (arena.take seg).flatten ++ (arena[seg] ++ (arena.drop (seg + 1)).flatten) := by
    conv_lhs => rw [← take_append_drop seg arena, ← segments]
    rw [flatten_append, flatten_cons]
  rw [whole, ← append_assoc, ← append_assoc]
  exact perm_middle

variable {β γ : Type} {f : α → Option β}

/-- Clearing segments whose cells are all projected away leaves the projection as it was. -/
theorem filterMap_clear
    (hidden : ∀ l cell, gone l.seg = true → cellAt arena l = some cell → f cell = none) :
    (clear arena gone).flatten.filterMap f = arena.flatten.filterMap f := by
  rw [filterMap_flatten, filterMap_flatten]
  congr 1
  apply ext_getElem?
  intro seg
  rw [getElem?_map, getElem?_map, clear, getElem?_mapIdx]
  cases found : arena[seg]? with
  | none => rfl
  | some cells =>
    simp only [map_some, some.injEq]
    by_cases dropped : gone seg = true
    · rw [if_pos dropped, filterMap_nil]
      symm
      apply filterMap_eq_nil_iff.mpr
      intro cell member
      obtain ⟨off, here⟩ := mem_iff_getElem?.mp member
      exact hidden ⟨seg, off⟩ cell dropped (by rw [cellAt, found, bind_some, here])
    · rw [if_neg dropped]

/-- The addresses of the cells, segment by segment. -/
def addresses (arena : List (List α)) : List Loc :=
  (range arena.length).flatMap fun seg =>
    (range ((arena[seg]?).elim 0 length)).map fun off => ⟨seg, off⟩

theorem mem_addresses : l ∈ addresses arena ↔ ∃ cell, cellAt arena l = some cell := by
  obtain ⟨seg, off⟩ := l
  simp only [addresses, mem_flatMap, List.mem_map, mem_range, Loc.mk.injEq]
  constructor
  · rintro ⟨seg', inside, off', bound, rfl, rfl⟩
    rw [getElem?_eq_getElem inside] at bound
    have offBound : off' < arena[seg'].length := bound
    refine ⟨arena[seg'][off'], ?_⟩
    rw [cellAt, getElem?_eq_getElem inside, bind_some]
    exact getElem?_eq_getElem offBound
  · rintro ⟨cell, found⟩
    obtain ⟨cells, atSeg, atOff⟩ := bind_eq_some_iff.mp found
    refine ⟨seg, (List.getElem?_eq_some_iff.mp atSeg).1, off, ?_, rfl, rfl⟩
    rw [atSeg]
    exact (List.getElem?_eq_some_iff.mp atOff).1

theorem length_addresses : (addresses arena).length = arena.flatten.length := by
  have lengths : (range arena.length).map (fun seg => (arena[seg]?).elim 0 length) = arena.map length := by
    apply ext_getElem?
    intro seg
    rw [getElem?_map, getElem?_map]
    by_cases inside : seg < arena.length
    · simp [inside]
    · rw [getElem?_eq_none (by simpa using inside), getElem?_eq_none (by omega)]
      rfl
  rw [addresses, length_flatMap, length_flatten, ← lengths]
  simp

/-- Distinct addresses are no more than the cells there are. -/
theorem length_le_flatten {nodes : List Loc} (distinct : nodes.Nodup)
    (each : ∀ l ∈ nodes, ∃ cell, cellAt arena l = some cell) : nodes.length ≤ arena.flatten.length := by
  have covered : nodes ⊆ addresses arena := fun l member => mem_addresses.mpr (each l member)
  calc nodes.length ≤ (addresses arena).length := (subperm_of_subset distinct covered).length_le
    _ = arena.flatten.length := length_addresses

/-! ## Moving cells -/

theorem nodup_addresses : (addresses arena).Nodup := by
  refine nodup_flatMap.mpr ⟨fun seg _ => ?_, ?_⟩
  · exact nodup_range.map fun off off' same => (Loc.mk.inj same).2
  · refine nodup_range.imp ?_
    intro seg seg' differs l here there
    obtain ⟨off, -, rfl⟩ := mem_map.mp here
    obtain ⟨off', -, same⟩ := mem_map.mp there
    exact differs (Loc.mk.inj same).1.symm

/-- Going through a list by its positions. -/
theorem filterMap_range {cells : List γ} (f : γ → Option β) :
    (range cells.length).filterMap (fun i => (cells[i]?).bind f) = cells.filterMap f := by
  induction cells with
  | nil => rfl
  | cons cell rest ih =>
    rw [length_cons, range_succ_eq_map, filterMap_cons, filterMap_cons, filterMap_map]
    have shifted : (fun i => ((cell :: rest)[i]?).bind f) ∘ Nat.succ = fun i => (rest[i]?).bind f := by
      funext i
      simp
    rw [shifted, ih]
    rfl

theorem flatMap_range (cells : List γ) (f : γ → List β) :
    (range cells.length).flatMap (fun i => (cells[i]?).elim [] f) = cells.flatMap f := by
  induction cells with
  | nil => rfl
  | cons cell rest ih =>
    rw [length_cons, range_succ_eq_map, flatMap_cons, flatMap_cons, flatMap_map]
    simp only [getElem?_cons_succ]
    rw [ih]
    rfl

theorem filterMap_addresses (arena : List (List α)) (f : α → Option β) :
    arena.flatten.filterMap f = (addresses arena).filterMap fun l => (cellAt arena l).bind f := by
  have perSegment : ∀ seg, ((range ((arena[seg]?).elim 0 length)).map fun off => (⟨seg, off⟩ : Loc)).filterMap
      (fun l => (cellAt arena l).bind f) = (arena[seg]?).elim [] (filterMap f) := by
    intro seg
    rw [filterMap_map]
    cases found : arena[seg]? with
    | none => rfl
    | some cells =>
      rw [elim_some, elim_some, ← filterMap_range f]
      apply filterMap_congr
      intro off _
      simp [cellAt, found]
  rw [addresses, filterMap_flatMap]
  simp only [perSegment]
  rw [flatMap_range, filterMap_flatten, flatMap_def]

/-- Where the values read from cells are distinct, one value is read from one cell. -/
theorem eq_of_nodup_filterMap (distinct : (arena.flatten.filterMap f).Nodup) (here : cellAt arena l = some x)
    (there : cellAt arena l' = some y) (reads : f x = some b)
    (reads' : f y = some b) : l = l' := by
  rw [filterMap_addresses] at distinct
  have apart := pairwise_filterMap.mp distinct
  by_contra differs
  let unequal (l l' : Loc) : Prop := ∀ b, (cellAt arena l).bind f = some b →
    ∀ b', (cellAt arena l').bind f = some b' → b ≠ b'
  have symmetric : Std.Symm unequal := ⟨fun _ _ related b first b' second => (related b' second b first).symm⟩
  have separate : unequal l l' :=
    Pairwise.forall apart (mem_addresses.mpr ⟨x, here⟩) (mem_addresses.mpr ⟨y, there⟩) differs
  refine separate b ?_ b ?_ rfl
  · rw [here, bind_some, reads]
  · rw [there, bind_some, reads']

/-- Two lists without repetitions that agree where a projection is defined project to the same. -/
theorem filterMap_perm_of_nodup {left right : List γ} (distinct : left.Nodup) (distinct' : right.Nodup)
    {f : γ → Option β} (agree : ∀ x, f x ≠ none → (x ∈ left ↔ x ∈ right)) :
    (left.filterMap f).Perm (right.filterMap f) := by
  have defined : ∀ nodes : List γ, nodes.filterMap f = (nodes.filter fun x => (f x).isSome).filterMap f := by
    intro nodes
    rw [filterMap_filter]
    apply filterMap_congr
    intro x _
    cases f x <;> rfl
  rw [defined left, defined right]
  apply Perm.filterMap
  apply (perm_ext_iff_of_nodup (distinct.filter _) (distinct'.filter _)).mpr
  intro x
  rw [mem_filter, mem_filter]
  apply and_congr_left
  intro isSome
  exact agree x (isSome_iff_ne_none.mp isSome)

/-- Cells that keep their projection where they are moved to, and are projected away where they
are dropped or added, project to the same list. -/
theorem filterMap_moved {pairs : List (Loc × Loc)}
    (distinct : (pairs.map Prod.fst).Nodup) (distinct' : (pairs.map Prod.snd).Nodup)
    (covers : ∀ l cell, cellAt arena l = some cell → f cell ≠ none → l ∈ pairs.map Prod.fst)
    (covers' : ∀ l cell, cellAt arena' l = some cell → f cell ≠ none → l ∈ pairs.map Prod.snd)
    (same : ∀ pair ∈ pairs, (cellAt arena pair.1).bind f = (cellAt arena' pair.2).bind f) :
    (arena'.flatten.filterMap f).Perm (arena.flatten.filterMap f) := by
  have project : ∀ (arena : List (List α)) (nodes : List Loc), nodes.Nodup →
      (∀ l cell, cellAt arena l = some cell → f cell ≠ none → l ∈ nodes) →
      (arena.flatten.filterMap f).Perm (nodes.filterMap fun l => (cellAt arena l).bind f) := by
    intro arena nodes distinct covers
    rw [filterMap_addresses]
    apply filterMap_perm_of_nodup (nodup_addresses) distinct
    intro l defined
    cases found : cellAt arena l with
    | none => rw [found] at defined; exact absurd rfl defined
    | some cell =>
      rw [found] at defined
      exact iff_of_true (mem_addresses.mpr ⟨cell, found⟩) (covers l cell found defined)
  refine (project arena' _ distinct' covers').trans (.trans ?_ (project arena _ distinct covers).symm)
  rw [filterMap_map, filterMap_map]
  exact .of_eq (filterMap_congr fun pair member => (same pair member).symm)

end Classad.Arena

import Mathlib.Data.List.Basic
import Mathlib.Data.List.Forall2
import Mathlib.Data.List.Nodup
import Mathlib.Data.List.Perm.Basic
import Mathlib.Logic.Function.Basic
import Mathlib.Tactic.Common

/-! Lists that list a partial map: each key it has once, with its value, and no other key. -/
namespace Classad.Listing
open List hiding after

variable {κ β : Type}

/-- The pairs are those of the map, each key once. -/
structure Lists (pairs : List (κ × β)) (map : κ → Option β) : Prop where
  distinct : (pairs.map Prod.fst).Nodup
  exact : ∀ key value, (key, value) ∈ pairs ↔ map key = some value

variable {pairs others : List (κ × β)} {map map' : κ → Option β} {key : κ} {value : β}

theorem Lists.nil : Lists ([] : List (κ × β)) fun _ => none :=
  ⟨nodup_nil, fun _ _ => iff_of_false (not_mem_nil) nofun⟩

theorem Lists.perm (lists : Lists pairs map) (same : pairs.Perm others) : Lists others map where
  distinct := (same.map Prod.fst).nodup_iff.mp lists.distinct
  exact key value := same.mem_iff.symm.trans (lists.exact key value)

theorem Lists.none_iff (lists : Lists pairs map) : map key = none ↔ ∀ value, (key, value) ∉ pairs := by
  constructor
  · intro absent value member
    rw [(lists.exact key value).mp member] at absent
    cases absent
  · intro missing
    cases found : map key with
    | none => rfl
    | some value => exact absurd ((lists.exact key value).mpr found) (missing value)

/-- A list is the list of one map only. -/
theorem Lists.map_unique (lists : Lists pairs map) (lists' : Lists pairs map') : map = map' := by
  funext key
  ext value
  rw [← lists.exact, lists'.exact]

/-- A map is listed in one way, up to the order. -/
theorem Lists.perm_of_same (lists : Lists pairs map) (others_ : Lists others map) : pairs.Perm others := by
  apply (perm_ext_iff_of_nodup (Nodup.of_map Prod.fst lists.distinct) (Nodup.of_map Prod.fst others_.distinct)).mpr
  rintro ⟨key, value⟩
  exact (lists.exact key value).trans (others_.exact key value).symm

variable [DecidableEq κ]

/-- A key the map does not have is added. -/
theorem Lists.insert (lists : Lists pairs map) (absent : map key = none) (value : β) :
    Lists ((key, value) :: pairs) (Function.update map key (some value)) where
  distinct := by
    rw [map_cons, nodup_cons]
    refine ⟨?_, lists.distinct⟩
    intro member
    obtain ⟨⟨key', value'⟩, inside, rfl⟩ := mem_map.mp member
    exact lists.none_iff.mp absent value' inside
  exact key' value' := by
    rw [mem_cons, Prod.mk.injEq]
    by_cases here : key' = key
    · subst here
      rw [Function.update_self, Option.some.injEq]
      constructor
      · rintro (⟨-, rfl⟩ | inside)
        · rfl
        · exact absurd inside (lists.none_iff.mp absent value')
      · rintro rfl
        exact .inl ⟨rfl, rfl⟩
    · rw [Function.update_of_ne here, ← lists.exact]
      constructor
      · rintro (⟨same, -⟩ | inside)
        · exact absurd same here
        · exact inside
      · exact .inr

/-- The pair of a key is taken out, wherever it stands. -/
theorem Lists.remove (lists : Lists (before ++ (key, value) :: after) map) :
    Lists (before ++ after) (Function.update map key none) := by
  have front : Lists ((key, value) :: (before ++ after)) map := lists.perm perm_middle
  have distinct := front.distinct
  rw [map_cons, nodup_cons] at distinct
  refine ⟨distinct.2, fun key' value' => ?_⟩
  by_cases here : key' = key
  · subst here
    rw [Function.update_self]
    refine iff_of_false (fun inside => distinct.1 ?_) nofun
    exact mem_map.mpr ⟨_, inside, rfl⟩
  · rw [Function.update_of_ne here, ← front.exact, mem_cons, Prod.mk.injEq]
    constructor
    · exact .inr
    · rintro (⟨same, -⟩ | inside)
      · exact absurd same here
      · exact inside

/-! ## Lists related element by element -/

theorem mem_of_forall₂ (related : Forall₂ R as bs)
    (member : b ∈ bs) : ∃ a ∈ as, R a b := by
  induction related with
  | nil => cases member
  | cons here _ ih =>
    rcases mem_cons.mp member with rfl | later
    · exact ⟨_, (.head _), here⟩
    · obtain ⟨a, inside, holds⟩ := ih later
      exact ⟨a, .tail _ inside, holds⟩

end Classad.Listing

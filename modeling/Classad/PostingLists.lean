import Mathlib.Tactic.Common

/-! Posting lists: maps from keys to the positions filed under them, grown by one entry at a
time, and a membership filter over hashed keys. Keys are compared with `==`, which need not be
reflexive; a key that does not equal itself is filed but never found again. Nothing here
mentions a particular program. -/
namespace Classad.PostingLists
open List

/-- The positions filed under each key, keys in the order of their first use. -/
abbrev Postings (K : Type) := List (K × List Nat)

section
variable {K : Type} [BEq K]

def keys (post : Postings K) : List K := post.map Prod.fst

/-- File a position under a key. -/
def addOffset : Postings K → K → Nat → Postings K
  | [], key, position => [(key, [position])]
  | (held, positions) :: rest, key, position =>
    if held == key then (held, position :: positions) :: rest
    else (held, positions) :: addOffset rest key position

def get (post : Postings K) (key : K) : Option (List Nat) := (post.find? (·.1 == key)).map Prod.snd

/-- The positions under a key; a key that was never used has none. -/
def offsets (post : Postings K) (key : K) : List Nat := (get post key).getD []

/-- The map after filing all of the entries. -/
def postAll (post : Postings K) (entries : List (K × Nat)) : Postings K :=
  entries.foldl (fun post entry => addOffset post entry.1 entry.2) post

theorem offsets_cons (held : K) (positions : List Nat) (rest : Postings K) (key : K) :
    offsets ((held, positions) :: rest) key = if held == key then positions else offsets rest key := by
  unfold offsets get
  by_cases same : (held == key) = true
  · simp [same]
  · simp [same]

theorem mem_offsets_addOffset [PartialEquivBEq K] (post : Postings K) (filed key : K) (position other : Nat) :
    other ∈ offsets (addOffset post filed position) key ↔
      other ∈ offsets post key ∨ other = position ∧ (filed == key) = true := by
  induction post with
  | nil =>
    rw [addOffset, offsets_cons]
    by_cases same : (filed == key) = true
    · simp [same, offsets, get]
    · simp [same, offsets, get]
  | cons head rest ih =>
    obtain ⟨held, positions⟩ := head
    rw [addOffset]
    split
    next here =>
      have agree : (held == key) = (filed == key) := BEq.congr_left here
      rw [offsets_cons, offsets_cons, agree]
      by_cases asked : (filed == key) = true
      · simp only [asked, if_true, mem_cons, and_true]
        exact or_comm
      · simp [asked]
    next here =>
      rw [offsets_cons, offsets_cons]
      by_cases asked : (held == key) = true
      · -- `filed` cannot equal `key` as well
        have apart : (filed == key) = false := by
          by_contra same
          exact here (PartialEquivBEq.trans asked (PartialEquivBEq.symm (by simpa using same)))
        simp [asked, apart]
      · simpa [asked] using ih

/-- A position is under a key exactly if it was filed under an equal one. -/
theorem mem_offsets_postAll [PartialEquivBEq K] (entries : List (K × Nat)) (key : K) (position : Nat) :
    position ∈ offsets (postAll [] entries) key ↔ ∃ filed, (filed, position) ∈ entries ∧ (filed == key) = true := by
  suffices run : ∀ post : Postings K, position ∈ offsets (postAll post entries) key ↔
      position ∈ offsets post key ∨ ∃ filed, (filed, position) ∈ entries ∧ (filed == key) = true by
    simpa [offsets, get] using run []
  induction entries with
  | nil => simp [postAll]
  | cons entry rest ih =>
    intro post
    have tail := ih (addOffset post entry.1 entry.2)
    rw [postAll, foldl_cons, ← postAll, tail, mem_offsets_addOffset, or_assoc]
    refine or_congr_right ?_
    constructor
    · rintro (⟨rfl, same⟩ | ⟨filed, member, same⟩)
      · exact ⟨entry.1, (.head _), same⟩
      · exact ⟨filed, .tail _ member, same⟩
    · rintro ⟨filed, member, same⟩
      rcases mem_cons.mp member with rfl | member
      · exact .inl ⟨rfl, same⟩
      · exact .inr ⟨filed, member, same⟩

section
variable (post : Postings K)
include post

theorem keys_addOffset_mono (member : used ∈ keys post) :
    used ∈ keys (addOffset post key position) := by
  induction post with
  | nil => cases member
  | cons head rest ih =>
    rw [addOffset]
    split
    · exact member
    · rcases mem_cons.mp member with rfl | member
      · exact (.head _)
      · exact .tail _ (ih member)

theorem keys_addOffset_self :
    ∃ used ∈ keys (addOffset post key position), (used == key) = true ∨ used = key := by
  induction post with
  | nil => exact ⟨key, mem_singleton_self _, .inr rfl⟩
  | cons head rest ih =>
    obtain ⟨held, positions⟩ := head
    rw [addOffset]
    split
    next here =>
      exact ⟨held, (.head _), .inl here⟩
    · obtain ⟨used, member, same⟩ := ih
      exact ⟨used, .tail _ member, same⟩

variable (entries : List (K × Nat))

theorem keys_postAll_mono (member : used ∈ keys post) :
    used ∈ keys (postAll post entries) := by
  induction entries generalizing post with
  | nil => exact member
  | cons entry rest ih => exact ih _ (keys_addOffset_mono post member)

/-- Everything filed has a key that stands for it. -/
theorem key_of_entry (member : (key, position) ∈ entries) :
    ∃ used ∈ keys (postAll post entries), (used == key) = true ∨ used = key := by
  induction entries generalizing post with
  | nil => cases member
  | cons entry rest ih =>
    rcases mem_cons.mp member with rfl | member
    · obtain ⟨used, filed, same⟩ := keys_addOffset_self post
      exact ⟨used, keys_postAll_mono _ rest filed, same⟩
    · exact ih _ member

/-- Dropping keys leaves the positions of the others as they are. -/
theorem offsets_filter [LawfulBEq K] (keep : K → Bool) (key : K) :
    offsets (post.filter fun entry => keep entry.1) key = if keep key then offsets post key else [] := by
  induction post with
  | nil => simp [offsets, get]
  | cons head rest ih =>
    obtain ⟨held, positions⟩ := head
    rw [filter_cons, offsets_cons]
    by_cases same : held = key
    · subst same
      by_cases kept : keep held = true
      · simp [kept, offsets_cons]
      · simpa [kept] using ih
    · have other : ¬(held == key) = true := by simpa using same
      by_cases kept : keep held = true
      · simp only [kept, offsets_cons, other, if_true]
        exact ih
      · simp only [kept, other]
        exact ih

end

/-- A key that is found equals itself. -/
theorem self_of_get [PartialEquivBEq K] {post : Postings K} (found : get post key = some positions) :
    (key == key) = true := by
  obtain ⟨entry, hit, _⟩ := Option.map_eq_some_iff.mp found
  have same : (entry.1 == key) = true := by simpa using find?_some hit
  exact PartialEquivBEq.trans (PartialEquivBEq.symm same) same

end

/-! ## Membership filters -/

section
variable {H : Type} {hash : H} (places : H → List Nat)

variable (bits : Nat → Bool)

/-- Set the bits of a hash. -/
def setBits (hash : H) : Nat → Bool := fun place => bits place || (places hash).contains place

/-- Whether all bits of a hash are set. -/
def mayContain (hash : H) : Bool := (places hash).all bits

/-- No false negatives. -/
theorem mayContain_of_mem (hashes : List H) (member : hash ∈ hashes) :
    mayContain places (hashes.foldl (setBits places) bits) hash = true := by
  have kept : ∀ (hashes : List H) (bits : Nat → Bool) (place : Nat), bits place = true →
      hashes.foldl (setBits places) bits place = true := by
    intro hashes
    induction hashes with
    | nil => exact fun _ _ set => set
    | cons head rest ih => exact fun bits place set => ih _ place (by simp [setBits, set])
  obtain ⟨before, after, rfl⟩ := append_of_mem member
  rw [foldl_append, foldl_cons, mayContain, all_eq_true]
  intro place named
  exact kept after _ place (by simp [setBits, named])

end
end Classad.PostingLists
